import RelQuery.Proofs.Filter.Nested

/-!
# What comparisons record of a path key

The tokens of a path key are hops, an attribute and keys inside its document. What an entry with the
key compares, records them all, and after them the keys that its value adds; except that a
comparison with a computed attribute records no keys inside its document.
-/

namespace RelQuery

/-! ## What tokens spell -/

/-- The path that tokens spell, each of them in order: fields of associations, then an attribute,
then keys inside its document. -/
inductive Path.Spells (s : Schema) : Model → List String → AttributePath → Prop
  | attr {m : Model} {token : String} {a : Attribute} {keys : List String} :
      m.attribute? token = some a → (keys ≠ [] → a.type.isStructured = true) →
      Spells s m (token :: keys) ⟨[], a.name, keys⟩
  | hop {m t : Model} {token : String} {hop : Association} {tokens hops keys : List String}
      {attr : String} : m.associationForField? token = some hop → s.targetOf hop = .ok t →
      Spells s t tokens ⟨hops, attr, keys⟩ →
      Spells s m (token :: tokens) ⟨hop.name :: hops, attr, keys⟩

namespace Path

variable {s : Schema} {m : Model} {tokens : List String} {r : Resolved} {p : AttributePath}

/-- A path that can be followed is spelled by its tokens. -/
theorem Walks.spells (h : Walks s m tokens r) :
    Spells s m tokens ⟨r.aliases, r.attr.name, r.documentPath⟩ := by
  induction h with
  | last ha => exact .attr ha fun h => (h rfl).elim
  | document ha htype _ => exact .attr ha fun _ => htype
  | hop _ hhop ht _ ih => exact .hop hhop ht ih

/-- Every token is a hop, the attribute, or a key inside its document. -/
theorem Spells.length (h : Spells s m tokens p) :
    tokens.length = p.hops.length + 1 + p.documentPath.length := by
  induction h with
  | attr => simp [Nat.add_comm]
  | hop _ _ _ ih =>
    simp only [List.length_cons, ih]
    omega

end Path

namespace Filter

variable {s : Schema} {m : Model} {scope : Scope} {key : String} {value d : Document}
  {f g l : Filter} {a b : Scope × Document} {t : Attribute} {op : Operator}
  {fields : List (String × Document)} {p : AttributePath} {negated : Bool}

/-! ## Behind an attribute -/

theorem inherited_false : Inherited fun _ => False where
  logical := ⟨False.elim, fun ⟨_, _, h⟩ => h⟩
  not := id
  comparison_congr _ := .rfl
  not_congr := id

theorem compileValue_of_visits (hv : Visits s a b) (h : compileValue s a.1 a.2 = .ok f) :
    ∃ g, compileValue s b.1 b.2 = .ok g := by
  obtain ⟨g, hg, -⟩ := inherited_false.of_visits hv h
  exact ⟨g, hg⟩

theorem Descends.at_attribute (hd : Descends s a b) (ha : a.1.attr = some t) :
    ∃ keys, b.1 = { a.1 with documentPath := a.1.documentPath ++ keys } := by
  cases hd with
  | within _ hr => exact ⟨_, inner_of_role hr (ha ▸ rfl)⟩
  | _ => exact ⟨[], by rw [List.append_nil]⟩

/-- Behind an attribute there are only keys inside its document. -/
theorem Visits.at_attribute (hv : Visits s a b) (ha : a.1.attr = some t) :
    ∃ keys, b.1 = { a.1 with documentPath := a.1.documentPath ++ keys } := by
  induction hv with
  | refl => exact ⟨[], by rw [List.append_nil]⟩
  | tail _ hd ih =>
    obtain ⟨keys, hb⟩ := ih
    obtain ⟨more, hc⟩ := hd.at_attribute (t := t) (by rw [hb, ha])
    exact ⟨keys ++ more, by rw [hc, hb, List.append_assoc]⟩

/-- A comparison records its scope, but with a computed attribute no keys inside the document. -/
theorem path_of_leaf (h : leaf s scope op value = .ok l) (ha : scope.attr = some t)
    (hr : l.reach? = some (p, negated)) :
    p = ⟨scope.hops, t.name, if t.isComputed then [] else scope.documentPath⟩ := by
  obtain ⟨a, op', ha', -, -, ⟨e, literal, he, -, rfl⟩ | ⟨operand, hstored, -, rfl⟩⟩ :=
    leaf_cases h
  · cases ha.symm.trans ha'
    cases hr
    simp [Attribute.isComputed, he]
  · cases ha.symm.trans ha'
    cases hr
    simp [Attribute.isComputed, hstored]

theorem path_of_compileValue (h : compileValue s scope value = .ok f) (ha : scope.attr = some t)
    (hl : l ∈ f.leaves) (hr : l.reach? = some (p, negated)) :
    ∃ keys, p = ⟨scope.hops, t.name, if t.isComputed then [] else scope.documentPath ++ keys⟩ := by
  obtain ⟨b, hv, hb⟩ := exists_stands h hl (hr ▸ rfl)
  obtain ⟨keys, hscope⟩ := hv.at_attribute ha
  obtain ⟨op, d, hleaf⟩ := hb.exists_leaf
  refine ⟨keys, ?_⟩
  rw [hscope] at hleaf
  exact path_of_leaf hleaf ha hr

/-! ## Path keys -/

theorem role_of_path {x : Role} (hp : ReadAsPath scope key) (h : role s scope key value = .ok x) :
    ∃ path r, Path.Key.parse? key = some path ∧ Path.walk s scope.model path.tokens = .ok r ∧
      x = .within ⟨r.target, scope.hops ++ r.aliases, some r.attr, r.documentPath,
        scope.negated || path.negated⟩ := by
  rw [role_of_isField ⟨hp.noOperator, hp.noExpression⟩ hp.atModel, fieldRole, hp.noAttribute] at h
  simp only [hp.noAssociation] at h
  split at h
  · rename_i path hpath
    obtain ⟨r, hwalk, h⟩ := bind_eq_ok.mp h
    cases h
    exact ⟨path, r, hpath, hwalk, rfl⟩
  · cases h

/-- What an entry with a path key compares, records the hops and the attribute of the path, and for
a stored attribute the keys inside its document. -/
theorem path_of_entry (hp : ReadAsPath scope key) (h : compileEntry s scope key value = .ok g) :
    ∃ path r, Path.Key.parse? key = some path ∧ Path.walk s scope.model path.tokens = .ok r ∧
      ∀ l ∈ g.leaves, ∀ p negated, l.reach? = some (p, negated) →
        ∃ keys, p = ⟨scope.hops ++ r.aliases, r.attr.name,
          if r.attr.isComputed then [] else r.documentPath ++ keys⟩ := by
  obtain ⟨x, hrole, h⟩ := bind_eq_ok.mp h
  obtain ⟨path, r, hpath, hwalk, rfl⟩ := role_of_path hp hrole
  exact ⟨path, r, hpath, hwalk, fun l hl p negated hr => path_of_compileValue h rfl hl hr⟩

/-! ## What is recorded -/

/-- The path that the tokens spell, behind the hops of the scope, with further keys of the value
inside the document. -/
def Records (s : Schema) (scope : Scope) (tokens : List String) (p : AttributePath) : Prop :=
  ∃ told keys, Path.Spells s scope.model tokens told ∧
    p = ⟨scope.hops ++ told.hops, told.attr, told.documentPath ++ keys⟩

theorem Records.length_le {tokens : List String} (h : Records s scope tokens p) :
    scope.hops.length + tokens.length ≤ p.hops.length + 1 + p.documentPath.length := by
  obtain ⟨told, keys, htold, rfl⟩ := h
  simp only [List.length_append, htold.length]
  omega

/-- In a filter that compiles, each comparison of an entry with a path key records every token of
the key: unless the path leads into the document of a computed attribute. -/
theorem records_of_compile {model : String} (hm : s.model model = .ok m)
    (h : compile s model value = .ok f) (hv : Visits s (.root m, value) (scope, .obj fields))
    (he : (key, d) ∈ fields) (hp : ReadAsPath scope key) :
    ∃ path r g, Path.Key.parse? key = some path ∧
      Path.walk s scope.model path.tokens = .ok r ∧ compileEntry s scope key d = .ok g ∧
      ∀ l ∈ g.leaves, ∀ p negated, l.reach? = some (p, negated) →
        (Records s scope path.tokens p ↔ r.attr.isComputed = false ∨ r.documentPath = []) := by
  obtain ⟨m', hm', -, h⟩ := compile_eq_ok.mp h
  cases hm.symm.trans hm'
  obtain ⟨object, hobject⟩ := compileValue_of_visits hv h
  obtain ⟨-, -, g, -, hg⟩ := compile_field hobject he
  obtain ⟨path, r, hpath, hwalk, hrecorded⟩ := path_of_entry hp hg
  have hspells := (Path.walks_of_walk hwalk).spells
  refine ⟨path, r, g, hpath, hwalk, hg, fun l hl p negated hr => ?_⟩
  obtain ⟨keys, rfl⟩ := hrecorded l hl p negated hr
  constructor
  · intro hrecords
    by_contra hdropped
    obtain ⟨hcomputed, hdocument⟩ := not_or.mp hdropped
    have hcomputed : r.attr.isComputed = true := by simpa using hcomputed
    have hle := hrecords.length_le
    have hpos : 0 < r.documentPath.length := List.length_pos_of_ne_nil hdocument
    simp only [hcomputed, if_true, hspells.length, List.length_append, List.length_nil] at hle
    omega
  · intro hstored
    by_cases hcomputed : r.attr.isComputed = true
    · have hdocument : r.documentPath = [] :=
        hstored.resolve_left (by simp [hcomputed])
      refine ⟨_, [], hspells, ?_⟩
      simp [hcomputed, hdocument]
    · refine ⟨_, keys, hspells, ?_⟩
      simp [hcomputed]

theorem ownerCity_records : ∃ m path r p, clinicSchema.model "Pet" = .ok m ∧
    ReadAsPath (.root m) "owner__contact__city" ∧
    Path.Key.parse? "owner__contact__city" = some path ∧
    Path.walk clinicSchema m path.tokens = .ok r ∧ r.attr.isComputed = false ∧
    ownerCity.reach? = some (p, false) ∧ Records clinicSchema (.root m) path.tokens p := by
  obtain ⟨m, hm, hp⟩ : ∃ m, clinicSchema.model "Pet" = .ok m ∧
      ReadAsPath (.root m) "owner__contact__city" := ⟨_, rfl, ⟨rfl, rfl, by decide, rfl⟩, rfl⟩
  obtain ⟨path, r, g, hpath, hwalk, hg, hrecords⟩ :=
    records_of_compile hm compile_ownerCity .refl List.mem_cons_self hp
  have hgf : g = ownerCity := by
    have h := compile_ownerCity
    rw [compile_obj hm, compileValue_singleton, hg] at h
    exact Except.ok.inj h
  have hstored : r.attr.isComputed = false := by
    cases hm
    cases hpath
    cases hwalk
    rfl
  subst hgf
  refine ⟨m, path, r, _, hm, hp, hpath, hwalk, hstored, rfl, ?_⟩
  exact (hrecords _ (List.mem_singleton_self _) _ _ rfl).mpr (.inl hstored)

def cardGift : Filter :=
  .computed ⟨⟨[], "card", []⟩, "card_of(tag)", .eq, "'x'", false⟩

theorem compile_cardGift : compile clinicSchema "Pet" (.obj [("card__gift", .str "x")]) =
    .ok cardGift := by
  simp only [compile, compileValue, compileFields]
  rfl

/-- The card is computed, and the key inside it is recorded nowhere. -/
theorem cardGift_not_records : Schema.build clinic = .ok clinicSchema ∧
    ∃ m p, clinicSchema.model "Pet" = .ok m ∧ ReadAsPath (.root m) "card__gift" ∧
      Path.Key.parse? "card__gift" = some ⟨["card", "gift"], false⟩ ∧
      compile clinicSchema "Pet" (.obj [("card__gift", .str "x")]) = .ok cardGift ∧
      cardGift.reach? = some (p, false) ∧
      ¬Records clinicSchema (.root m) ["card", "gift"] p := by
  refine ⟨build_clinic, _, _, rfl, ⟨⟨rfl, rfl, by decide, rfl⟩, rfl⟩, rfl, compile_cardGift, rfl,
    fun h => absurd h.length_le (by decide)⟩

end Filter

end RelQuery
