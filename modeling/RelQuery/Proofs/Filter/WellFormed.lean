import RelQuery.Proofs.Filter.Ways

/-!
# Well-formed comparisons

A comparison that compiles is with an attribute of the model that its hops lead to. A stored one is
compared by its type, or inside its documents, with an operand that suits the operator.
-/

namespace RelQuery

/-! ## Operands -/

namespace Operand

/-- An operand that is neither a list nor an object. -/
def IsScalar : Operand → Prop
  | .plain value => Filter.isBracket value = false
  | .cast _ _ => True

/-- What an operator may be given. -/
structure Suits (op : Operator) (operand : Operand) : Prop where
  list : op.takesList = true → ∃ items, operand = .plain (.arr items) ∧
    (op.isRange = true → items.length = 2)
  truth : op = .is ∨ op = .not → operand = .plain .null ∨ ∃ b, operand = .plain (.bool b)
  scalar : op.takesList = false → operand.IsScalar
  notNull : op = .eq ∨ op = .ne → operand ≠ .plain .null

variable {op : Operator} {value d : Document} {operand : Operand} {attr : String}
  {type : ScalarType} {dialect : Dialect} {u : Unit}

theorem not_null_of_testForNull (h : testForNull op value = .eq ∨ testForNull op value = .ne) :
    value ≠ .null := by
  rintro rfl
  rcases h with h | h <;> cases op <;> cases h

/-- A value that passes the check suits the operator, unless it asks for equality with null. -/
theorem suits_of_checkShape (h : checkShape op value attr = .ok u)
    (hn : op = .eq ∨ op = .ne → value ≠ .null) : Suits op (.plain value) where
  list hl := by
    unfold checkShape at h
    rw [if_pos hl] at h
    split at h
    · rename_i items
      refine ⟨items, rfl, fun hr => ?_⟩
      split at h
      · cases h
      · simp_all
    · cases h
  truth ht := by
    rcases ht with rfl | rfl
    all_goals
      cases value with
      | null => exact .inl rfl
      | bool b => exact .inr ⟨b, rfl⟩
      | _ => cases h
  scalar hl := by
    unfold checkShape at h
    rw [if_neg (Bool.eq_false_iff.mp hl)] at h
    cases value with
    | arr | obj => cases op <;> cases h
    | _ => rfl
  notNull ho := by
    rintro ⟨⟩
    exact hn ho rfl

/-! ### Values read by a type -/

/-- A value is read as it is, or as a number. -/
theorem scalar_eq_ok (h : Operand.scalar type value attr = .ok d) :
    d = value ∨ (∃ n, d = .num n) ∧ ((∃ n, value = .num n) ∨ ∃ t, value = .str t) := by
  unfold Operand.scalar at h
  split at h
  · cases h
    cases value <;> first | exact .inl rfl | cases ‹_›
  · split at h
    · obtain ⟨n, hn, h⟩ := bind_eq_ok.mp h
      cases h
      refine .inr ⟨⟨_, rfl⟩, ?_⟩
      cases value with
      | num n => exact .inl ⟨n, rfl⟩
      | str t => exact .inr ⟨t, rfl⟩
      | _ => cases hn
    · split at h
      · obtain ⟨x, hx, h⟩ := bind_eq_ok.mp h
        cases h
        refine .inr ⟨⟨_, rfl⟩, ?_⟩
        cases value with
        | num n => exact .inl ⟨n, rfl⟩
        | str t => exact .inr ⟨t, rfl⟩
        | _ => cases hx
      · cases h
        exact .inl rfl

/-- A number or a literal with a cast suits what a number or a text suits. -/
theorem Suits.of_number_or_text (h : Suits op (.plain value))
    (hv : (∃ n, value = .num n) ∨ ∃ t, value = .str t)
    (ho : (∃ n, operand = .plain (.num n)) ∨ ∃ l t, operand = .cast l t) : Suits op operand where
  list hl := by
    obtain ⟨items, heq, -⟩ := h.list hl
    rcases hv with ⟨n, rfl⟩ | ⟨t, rfl⟩ <;> cases heq
  truth ht := by
    rcases h.truth ht with heq | ⟨b, heq⟩ <;> rcases hv with ⟨n, rfl⟩ | ⟨t, rfl⟩ <;> cases heq
  scalar _ := by
    rcases ho with ⟨n, rfl⟩ | ⟨l, t, rfl⟩
    · rfl
    · trivial
  notNull _ := by
    rcases ho with ⟨n, rfl⟩ | ⟨l, t, rfl⟩ <;> nofun

theorem Suits.scalar_eq_ok (h : Suits op (.plain value))
    (hd : Operand.scalar type value attr = .ok d) : Suits op (.plain d) := by
  rcases Operand.scalar_eq_ok hd with rfl | ⟨⟨n, rfl⟩, hv⟩
  · exact h
  · exact h.of_number_or_text hv (.inl ⟨n, rfl⟩)

/-- A list suits the operators that take one of its length. -/
theorem Suits.of_length {items items' : List Document} (h : Suits op (.plain (.arr items)))
    (hlen : items'.length = items.length) : Suits op (.plain (.arr items')) where
  list hl := by
    obtain ⟨_, heq, htwo⟩ := h.list hl
    cases heq
    exact ⟨items', rfl, fun hr => hlen.trans (htwo hr)⟩
  truth ht := by rcases h.truth ht with heq | ⟨b, heq⟩ <;> cases heq
  scalar hl := nomatch h.scalar hl
  notNull _ := nofun

/-- Reading a value by the type of its attribute leaves it suitable. -/
theorem Suits.ofValue (h : Suits op (.plain value))
    (ho : ofValue type dialect value attr = .ok operand) : Suits op operand := by
  unfold Operand.ofValue at ho
  split at ho
  · obtain ⟨items, hitems, ho⟩ := bind_eq_ok.mp ho
    cases ho
    exact h.of_length (length_of_mapM hitems)
  · split at ho
    · obtain ⟨t, -, ho⟩ := bind_eq_ok.mp ho
      cases ho
      exact h.of_number_or_text (.inr ⟨_, rfl⟩) (.inr ⟨_, _, rfl⟩)
    · obtain ⟨d, hd, ho⟩ := bind_eq_ok.mp ho
      cases ho
      exact h.scalar_eq_ok hd
  · obtain ⟨d, hd, ho⟩ := bind_eq_ok.mp ho
    cases ho
    exact h.scalar_eq_ok hd

end Operand

/-! ## Comparisons -/

/-- A comparison on `m` is with the stored attribute `a` of the model `t` behind its hops. -/
structure Comparison.WellFormed (s : Schema) (m : Model) (c : Comparison) (t : Model)
    (a : Attribute) : Prop where
  modelAt : s.modelAt m c.path.hops = .ok t
  attr : t.attribute? c.path.attr = some a
  stored : a.computed = none
  /-- Only documents have keys inside. -/
  document : c.path.documentPath ≠ [] → a.type.isStructured = true
  type : c.type = if c.path.documentPath = [] then some a.type else none
  operand : c.operand.Suits c.operator

/-- A comparison on `m` is with the expression of the computed attribute `a` of the model `t` behind
its hops. -/
structure ComputedComparison.WellFormed (s : Schema) (m : Model) (c : ComputedComparison)
    (t : Model) (a : Attribute) : Prop where
  modelAt : s.modelAt m c.path.hops = .ok t
  attr : t.attribute? c.path.attr = some a
  computed : ∃ e, a.computed = some e ∧ c.expression = e.expression

namespace Filter

def LeafWellFormed (s : Schema) (m : Model) : Filter → Prop
  | .comparison c => ∃ t a, c.WellFormed s m t a
  | .computed c => ∃ t a, c.WellFormed s m t a
  | _ => True

/-- A scope lies behind hops from `root`, at an attribute of its model, and inside documents only if
the attribute has some. -/
structure Scope.Placed (s : Schema) (root : Model) (scope : Scope) : Prop where
  modelAt : s.modelAt root scope.hops = .ok scope.model
  attr : ∀ a, scope.attr = some a → scope.model.attribute? a.name = some a
  document : ∀ a, scope.attr = some a → scope.documentPath ≠ [] → a.type.isStructured = true

variable {s : Schema} {m root : Model} {scope inner : Scope} {key : String} {value : Document}
  {f l : Filter} {op : Operator} {a b : Scope × Document} {ks : List String}

theorem Scope.placed_root (s : Schema) (m : Model) : (Scope.root m).Placed s m :=
  ⟨rfl, nofun, nofun⟩

theorem Scope.Placed.leadsTo (hs : scope.Placed s root) (h : LeadsTo s scope key inner) :
    inner.Placed s root := by
  cases h with
  | document hdoc =>
    refine ⟨hs.modelAt, hs.attr, fun a ha _ => ?_⟩
    simp only [Scope.inDocument] at hdoc ha
    simp_all
  | atAttribute ha =>
    refine ⟨hs.modelAt, fun a h => ?_, fun a _ h => (h rfl).elim⟩
    cases h
    exact Model.attribute?_name ha
  | association hassoc ht =>
    refine ⟨?_, fun a h => ?_, fun a h => ?_⟩
    · rw [Schema.modelAt_append hs.modelAt]
      exact Schema.modelAt_singleton (Schema.follow_of_field hassoc ht)
    · cases h
    · cases h
  | path _ _ hr =>
    obtain ⟨hattr, hdoc⟩ := Path.attribute?_walk hr
    refine ⟨?_, fun a h => ?_, fun a h => ?_⟩
    · rw [Schema.modelAt_append hs.modelAt]
      exact Path.modelAt_walk hr
    · cases h
      exact hattr
    · cases h
      exact hdoc

theorem Way.placed (h : Way s a ks b) (hs : a.1.Placed s root) : b.1.Placed s root := by
  induction h with
  | here => exact hs
  | operand _ _ ih => exact ih
  | key _ _ hr _ ih => exact ih.leadsTo (.of_role hr)
  | path _ _ hr _ ih => exact ih.leadsTo (.of_role hr)

theorem leafWellFormed (h : leaf s scope op value = .ok l) (hs : scope.Placed s root) :
    LeafWellFormed s root l := by
  obtain ⟨a, op', ha, rfl, hshape, ⟨e, literal, he, -, rfl⟩ | ⟨operand, hstored, hoperand, rfl⟩⟩ :=
    leaf_cases h
  · exact ⟨_, a, hs.modelAt, hs.attr a ha, e, he, rfl⟩
  · have hsuits := Operand.suits_of_checkShape hshape Operand.not_null_of_testForNull
    refine ⟨_, a, hs.modelAt, hs.attr a ha, hstored, hs.document a ha, ?_, ?_⟩
    · cases scope.documentPath <;> rfl
    · split at hoperand
      · exact hoperand ▸ hsuits
      · exact hsuits.ofValue hoperand

/-! ## Negation -/

theorem reach?_leaf (h : leaf s scope op value = .ok l) :
    ∃ path, l.reach? = some (path, scope.negated) := by
  obtain ⟨a, op', -, -, -, ⟨e, literal, -, -, rfl⟩ | ⟨operand, -, -, rfl⟩⟩ := leaf_cases h
  · exact ⟨_, rfl⟩
  · exact ⟨_, rfl⟩

theorem LeadsTo.negated_of_not_path (h : LeadsTo s scope key inner)
    (hp : ¬ReadAsPath scope key) : inner.negated = scope.negated := by
  cases h with
  | path hpath => exact (hp hpath).elim
  | _ => rfl

/-- A path key negates what is behind it exactly if it holds `!!`. -/
theorem LeadsTo.negated_of_path (h : LeadsTo s scope key inner) (hp : ReadAsPath scope key) :
    inner.negated = true ↔ scope.negated = true ∨ ['!', '!'] <:+: key.toList := by
  cases h with
  | document hdoc => simp [Scope.inDocument, hp.atModel] at hdoc
  | atAttribute ha => cases hp.noAttribute.symm.trans ha
  | association hassoc => cases hp.noAssociation.symm.trans hassoc
  | path _ hpath => rw [Bool.or_eq_true, Path.Key.negated_iff hpath]

theorem Way.negated_iff (h : Way s a ks b) : b.1.negated = true ↔
    a.1.negated = true ∨ ∃ key ∈ ks, ['!', '!'] <:+: key.toList := by
  induction h with
  | here => simp
  | operand _ _ ih => exact ih
  | key _ _ hr hp ih => rw [(LeadsTo.of_role hr).negated_of_not_path hp, ih]
  | path _ _ hr hp ih =>
    rw [(LeadsTo.of_role hr).negated_of_path hp, ih]
    simp [or_and_right, exists_or, or_assoc]

/-- A comparison that stands at the end of a way is negated if one of the path keys on it holds
`!!`. -/
theorem Stands.negated_iff {path : AttributePath} {negated : Bool}
    (h : Stands s b l) (hw : Way s (.root m, value) ks b) (hr : l.reach? = some (path, negated)) :
    negated = true ↔ ∃ key ∈ ks, ['!', '!'] <:+: key.toList := by
  obtain ⟨op, d, hleaf⟩ := h.exists_leaf
  obtain ⟨path', hr'⟩ := reach?_leaf hleaf
  cases hr.symm.trans hr'
  rw [hw.negated_iff]
  exact ⟨fun h => h.resolve_left nofun, .inr⟩

/-! ## What compiles -/

/-- A comparison of what compiles compares the attribute of a scope behind hops from the model. -/
theorem exists_leaf_of_compile {model : String} (hm : s.model model = .ok m)
    (h : compile s model value = .ok f) (hl : l ∈ f.leaves) (hr : l.reach?.isSome = true) :
    ∃ scope op d, leaf s scope op d = .ok l ∧ scope.Placed s m := by
  obtain ⟨n, hn, -, h⟩ := compile_eq_ok.mp h
  cases hm.symm.trans hn
  obtain ⟨b, hv, hb⟩ := exists_stands h hl hr
  obtain ⟨ks, hw⟩ := exists_way hv
  obtain ⟨op, d, hleaf⟩ := hb.exists_leaf
  exact ⟨b.1, op, d, hleaf, hw.placed (Scope.placed_root s m)⟩

/-- Every comparison of what compiles is well formed. It stands at the end of a way into the
document, and wherever it stands, it is negated exactly if a path key on the way holds `!!`. -/
theorem wellFormed_of_compile {model : String} (h : compile s model value = .ok f) :
    ∃ m, s.model model = .ok m ∧ ∀ l ∈ f.leaves,
      (∀ c, l = .comparison c → ∃ t a, c.WellFormed s m t a) ∧
      (∀ c, l = .computed c → ∃ t a, c.WellFormed s m t a) ∧
      ∀ path negated, l.reach? = some (path, negated) →
        (∃ ks b, Way s (.root m, value) ks b ∧ Stands s b l) ∧
        ∀ ks b, Way s (.root m, value) ks b → Stands s b l →
          (negated = true ↔ ∃ key ∈ ks, ['!', '!'] <:+: key.toList) := by
  obtain ⟨m, hm, -, h⟩ := compile_eq_ok.mp h
  refine ⟨m, hm, fun l hl => ?_⟩
  have hstands : l.reach?.isSome = true →
      ∃ ks b, Way s (.root m, value) ks b ∧ Stands s b l := by
    intro hr
    obtain ⟨b, hv, hb⟩ := exists_stands h hl hr
    obtain ⟨ks, hw⟩ := exists_way hv
    exact ⟨ks, b, hw, hb⟩
  have hformed : l.reach?.isSome = true → LeafWellFormed s m l := by
    intro hr
    obtain ⟨ks, b, hw, hb⟩ := hstands hr
    obtain ⟨op, d, hleaf⟩ := hb.exists_leaf
    exact leafWellFormed hleaf (hw.placed (Scope.placed_root s m))
  refine ⟨?_, ?_, fun path negated hr => ⟨hstands (hr ▸ rfl), fun ks b hw hb => ?_⟩⟩
  · rintro c rfl
    exact hformed rfl
  · rintro c rfl
    exact hformed rfl
  · exact hb.negated_iff hw hr

/-- The key of the children is not null. -/
def keyedChildren : Document := .obj [("children!!id", .null)]

theorem compile_keyedChildren : compile Plan.forest "Node" keyedChildren = .ok Plan.hasChildren := by
  simp only [keyedChildren, compile, compileValue, compileFields]
  rfl

theorem keyedChildren_wellFormed : ∃ m t a c, Plan.forest.model "Node" = .ok m ∧
    Plan.hasChildren = .comparison c ∧ c.WellFormed Plan.forest m t a ∧
    ∃ ks b, Way Plan.forest (.root m, keyedChildren) ks b ∧
      Stands Plan.forest b Plan.hasChildren ∧ ∃ key ∈ ks, ['!', '!'] <:+: key.toList := by
  obtain ⟨m, hm, h⟩ := wellFormed_of_compile compile_keyedChildren
  obtain ⟨hformed, -, hnegated⟩ := h Plan.hasChildren (List.mem_singleton_self _)
  obtain ⟨t, a, hc⟩ := hformed _ rfl
  obtain ⟨⟨ks, b, hw, hb⟩, hiff⟩ := hnegated _ _ rfl
  exact ⟨m, t, a, _, hm, rfl, hc, ks, b, hw, hb, (hiff ks b hw hb).mp rfl⟩

end Filter

end RelQuery
