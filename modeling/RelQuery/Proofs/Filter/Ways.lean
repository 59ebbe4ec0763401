import RelQuery.Proofs.Filter.Away
import RelQuery.Proofs.Path.Keys

/-!
# Ways into a filter document

A key leads on into a document, to an attribute, along an association, or along a path. `Way` is the
way to a filter inside a document with the path keys on it, and `Stands` says which comparisons
stand there. A comparison is negated exactly if there is `!!` in a path key on the way to it.
-/

namespace RelQuery

namespace Filter

/-! ## Keys that lead on -/

/-- A key that is read as a path: it is read at a model, and is no operator, no expression, and
neither an attribute nor an association. -/
structure ReadAsPath (scope : Scope) (key : String) : Prop extends BeyondAttributes scope key where
  noAssociation : scope.model.associationForField? key = none

/-- The scope that a key leads to. -/
inductive LeadsTo (s : Schema) (scope : Scope) (key : String) : Scope → Prop
  | document : scope.inDocument = true →
      LeadsTo s scope key { scope with documentPath := scope.documentPath ++ [key] }
  | atAttribute {a : Attribute} : scope.model.attribute? key = some a →
      LeadsTo s scope key (scope.atAttribute a)
  | association {assoc : Association} {t : Model} :
      scope.model.associationForField? key = some assoc → s.targetOf assoc = .ok t →
      LeadsTo s scope key ⟨t, scope.hops ++ [assoc.name], none, [], scope.negated⟩
  | path {path : Path.Key} {r : Path.Resolved} : ReadAsPath scope key →
      Path.Key.parse? key = some path → Path.walk s scope.model path.tokens = .ok r →
      LeadsTo s scope key
        ⟨r.target, scope.hops ++ r.aliases, some r.attr, r.documentPath,
          scope.negated || path.negated⟩

variable {s : Schema} {scope inner : Scope} {key : String} {value : Document} {f l : Filter}
  {a b : Scope × Document} {ks : List String}

theorem LeadsTo.of_fieldRole (h : fieldRole s scope key value = .ok (.within inner))
    (hattr : scope.attr = none) (hop : operatorName? key = none) (hexp : key ≠ expressionKey) :
    LeadsTo s scope key inner := by
  unfold fieldRole at h
  split at h
  · rename_i ha
    cases h
    exact .atAttribute ha
  · rename_i ha
    split at h
    · rename_i hassoc
      split at h
      · obtain ⟨t, ht, h⟩ := bind_eq_ok.mp h
        cases h
        exact .association hassoc ht
      · cases h
    · rename_i hassoc
      split at h
      · rename_i path hpath
        obtain ⟨r, hr, h⟩ := bind_eq_ok.mp h
        cases h
        exact .path ⟨⟨hattr, hop, hexp, ha⟩, hassoc⟩ hpath hr
      · cases h

theorem LeadsTo.of_role (h : role s scope key value = .ok (.within inner)) :
    LeadsTo s scope key inner := by
  unfold role at h
  split at h
  · exact (operatorRole_ne_within h).elim
  · rename_i hop
    split at h
    · cases h
    · rename_i hexp
      split at h
      · cases h
        exact .document ‹_›
      · split at h
        · cases h
        · rename_i hattr
          exact .of_fieldRole h (by simpa using hattr) hop hexp

/-! ## Ways -/

/-- The way to a filter inside a document, with the path keys on it. -/
inductive Way (s : Schema) (a : Scope × Document) : List String → Scope × Document → Prop
  | here : Way s a [] a
  /-- To an item of a conjunction, or to an operand. -/
  | operand {ks : List String} {scope : Scope} {value d : Document} : Way s a ks (scope, value) →
      Descends s (scope, value) (scope, d) → Way s a ks (scope, d)
  | key {ks : List String} {scope inner : Scope} {fields : List (String × Document)} {key : String}
      {value : Document} : Way s a ks (scope, .obj fields) → (key, value) ∈ fields →
      role s scope key value = .ok (.within inner) → ¬ReadAsPath scope key →
      Way s a ks (inner, value)
  | path {ks : List String} {scope inner : Scope} {fields : List (String × Document)}
      {key : String} {value : Document} : Way s a ks (scope, .obj fields) → (key, value) ∈ fields →
      role s scope key value = .ok (.within inner) → ReadAsPath scope key →
      Way s a (ks ++ [key]) (inner, value)

theorem Way.within {fields : List (String × Document)} (hw : Way s a ks (scope, .obj fields))
    (he : (key, value) ∈ fields) (hr : role s scope key value = .ok (.within inner)) :
    ∃ ks, Way s a ks (inner, value) := by
  by_cases hp : ReadAsPath scope key
  · exact ⟨_, hw.path he hr hp⟩
  · exact ⟨_, hw.key he hr hp⟩

/-- There is a way to every filter inside a document. -/
theorem exists_way (h : Visits s a b) : ∃ ks, Way s a ks b := by
  induction h with
  | refl => exact ⟨_, .here⟩
  | tail _ hd ih =>
    obtain ⟨ks, hw⟩ := ih
    cases hd with
    | item hattr hd => exact ⟨ks, hw.operand (.item hattr hd)⟩
    | within he hr => exact hw.within he hr
    | operand he hr hd => exact ⟨ks, hw.operand (.operand he hr hd)⟩
    | operands he hr => exact ⟨ks, hw.operand (.operands he hr)⟩
    | negated he hr hv => exact ⟨ks, hw.operand (.negated he hr hv)⟩

/-! ## Leaves and where they stand -/

theorem leaves_of_leaf {op : Operator} (h : leaf s scope op value = .ok f) : f.leaves = [f] := by
  obtain ⟨a, -, ⟨c, rfl, -⟩ | ⟨e, c, -, rfl, -⟩⟩ := leaf_eq_ok h <;> rfl

/-- Every comparison of what compiles stands somewhere inside the document. -/
theorem exists_stands (h : compileValue s scope value = .ok f) (hl : l ∈ f.leaves)
    (hr : l.reach?.isSome = true) : ∃ b, Visits s (scope, value) b ∧ Stands s b l := by
  have hstands : ∀ {b g}, Stands s b g → l ∈ g.leaves → Stands s b l := by
    intro b g h hl
    obtain ⟨op, value, hleaf⟩ := h.exists_leaf
    rw [leaves_of_leaf hleaf] at hl
    cases List.mem_singleton.mp hl
    exact h
  have hraw : ∀ {sql}, l ∉ (raw sql).leaves := by
    intro sql hl
    cases List.mem_singleton.mp hl
    cases hr
  exact (compositional_visits mem_leaves_combine hstands (fun _ _ hl => (hraw hl).elim)
    fun _ _ hl => .inl hl).compileValue h hl

end Filter

end RelQuery
