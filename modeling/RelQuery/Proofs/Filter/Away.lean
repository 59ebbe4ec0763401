import RelQuery.Proofs.Filter.Descent
import RelQuery.Proofs.Filter.Hops
import RelQuery.Proofs.Filter.Local

/-!
# Comparisons behind associations

A key leads away from the model of a filter if it names an association, or is a path through one.
Hops only grow on the way into a filter document, and they grow at these keys alone. So a compiled
filter leaves its model exactly if its document compares something behind such a key; an entry
without a comparison leaves no trace.
-/

namespace RelQuery.Filter

/-- A key that is read at a model, and not as an operator, an expression or an attribute. -/
structure BeyondAttributes (scope : Scope) (key : String) : Prop where
  atModel : scope.attr = none
  noOperator : operatorName? key = none
  noExpression : key ≠ expressionKey
  noAttribute : scope.model.attribute? key = none

/-- A key that leads from the model of a filter to another: an association, or a path through
one. -/
inductive LeadsAway (s : Schema) (scope : Scope) (key : String) : Prop
  | association {assoc : Association} : BeyondAttributes scope key →
      scope.model.associationForField? key = some assoc → LeadsAway s scope key
  | path {path : Path.Key} {r : Path.Resolved} : BeyondAttributes scope key →
      Path.Key.parse? key = some path → Path.walk s scope.model path.tokens = .ok r →
      r.hops ≠ [] → LeadsAway s scope key

/-- A comparison stands behind a key that leads away, at any depth. -/
inductive ComparesAway (s : Schema) (a : Scope × Document) : Prop
  | within {scope inner : Scope} {fields : List (String × Document)} {key : String}
      {value : Document} {b : Scope × Document} : Visits s a (scope, .obj fields) →
      (key, value) ∈ fields → LeadsAway s scope key → role s scope key value = .ok (.within inner) →
      Visits s (inner, value) b → Compares s b → ComparesAway s a

variable {s : Schema} {scope inner : Scope} {key : String} {value : Document} {f : Filter}
  {fs : List Filter} {a b : Scope × Document} {op : Operator} {hops : List String}
  {path : AttributePath} {negated : Bool} {r : AttributePath × Bool}

/-! ## Hops -/

theorem LeadsAway.beyond (h : LeadsAway s scope key) : BeyondAttributes scope key := by
  cases h <;> assumption

theorem hops_of_fieldRole (h : fieldRole s scope key value = .ok (.within inner))
    (hattr : scope.attr = none) (hop : operatorName? key = none) (hexp : key ≠ expressionKey) :
    ∃ hops, inner.hops = scope.hops ++ hops ∧ (hops ≠ [] ↔ LeadsAway s scope key) := by
  unfold fieldRole at h
  split at h
  · rename_i a ha
    cases h
    refine ⟨[], (List.append_nil _).symm, fun h => (h rfl).elim, fun h => ?_⟩
    cases ha.symm.trans h.beyond.noAttribute
  · rename_i ha
    have hbeyond : BeyondAttributes scope key := ⟨hattr, hop, hexp, ha⟩
    split at h
    · rename_i assoc hassoc
      split at h
      · obtain ⟨target, -, h⟩ := bind_eq_ok.mp h
        cases h
        exact ⟨[assoc.name], rfl, fun _ => .association hbeyond hassoc, fun _ => nofun⟩
      · cases h
    · rename_i hassoc
      split at h
      · rename_i path hpath
        obtain ⟨r, hr, h⟩ := bind_eq_ok.mp h
        cases h
        refine ⟨r.aliases, rfl, fun hne => ?_, fun hl => ?_⟩
        · exact .path hbeyond hpath hr fun h => hne (by rw [Path.Resolved.aliases, h, List.map_nil])
        · cases hl with
          | association _ h => cases hassoc.symm.trans h
          | path _ hpath' hr' hne =>
            cases hpath.symm.trans hpath'
            cases hr.symm.trans hr'
            exact fun h => hne (List.map_eq_nil_iff.mp h)
      · cases h

/-- The hops grow at a key exactly if it leads away. -/
theorem hops_of_role (h : role s scope key value = .ok (.within inner)) :
    ∃ hops, inner.hops = scope.hops ++ hops ∧ (hops ≠ [] ↔ LeadsAway s scope key) := by
  by_cases hattr : scope.attr.isSome = true
  · refine ⟨[], ?_, fun h => (h rfl).elim, fun h => ?_⟩
    · rw [List.append_nil, (role_within_attribute h hattr).2]
    · simp [h.beyond.atModel] at hattr
  · have hnone : scope.attr = none := by simpa using hattr
    unfold role at h
    split at h
    · exact (operatorRole_ne_within h).elim
    · rename_i hop
      split at h
      · cases h
      · rename_i hexp
        simp only [Scope.inDocument, hnone, Option.any_none, Bool.false_eq_true,
          if_false] at h
        exact hops_of_fieldRole h hnone hop hexp

theorem Descends.hops_grow (h : Descends s a b) : a.1.hops <+: b.1.hops := by
  cases h with
  | within _ hr =>
    obtain ⟨hops, hinner, -⟩ := hops_of_role hr
    exact ⟨hops, hinner.symm⟩
  | _ => exact List.prefix_rfl

theorem Visits.hops_grow (h : Visits s a b) : a.1.hops <+: b.1.hops := by
  induction h with
  | refl => exact List.prefix_rfl
  | tail _ hd ih => exact ih.trans hd.hops_grow

/-- Behind a key that leads away there are more hops. -/
theorem hops_ne_of_leadsAway {fields : List (String × Document)}
    (hv : Visits s a (scope, .obj fields)) (haway : LeadsAway s scope key)
    (hr : role s scope key value = .ok (.within inner)) (hv' : Visits s (inner, value) b) :
    b.1.hops ≠ a.1.hops := by
  intro heq
  obtain ⟨hops, hinner, hne⟩ := hops_of_role hr
  have hlength : inner.hops.length = scope.hops.length + hops.length := by
    rw [hinner, List.length_append]
  have hpos : 0 < hops.length := List.length_pos_of_ne_nil (hne.mpr haway)
  have hle : a.1.hops.length ≤ scope.hops.length := hv.hops_grow.length_le
  have hle' : inner.hops.length ≤ b.1.hops.length := hv'.hops_grow.length_le
  rw [heq] at hle'
  omega

/-! ## Comparisons and what they reach -/

theorem goesAlong_leaf (h : Filter.leaf s scope op value = .ok f) :
    GoesAlong (some f) scope.hops := by
  obtain ⟨a, -, ⟨c, rfl, hc⟩ | ⟨e, c, -, rfl, hc, -⟩⟩ := leaf_eq_ok h
  · exact goesAlong_some.mpr ⟨c.path, List.mem_singleton_self _, by rw [hc]⟩
  · exact goesAlong_some.mpr ⟨c.path, List.mem_singleton_self _, by rw [hc]⟩

/-- A comparison inside a document goes along the hops of its scope. -/
theorem goesAlong_of_compares (h : compileValue s a.1 a.2 = .ok f) (hv : Visits s a b)
    (hc : Compares s b) : GoesAlong (some f) b.1.hops := by
  obtain ⟨g, hg, hgf⟩ := (inherited_goesAlong b.1.hops).of_visits hv h
  exact hgf ((inherited_goesAlong b.1.hops).of_compares hc hg fun _ _ _ => goesAlong_leaf)

/-- A filter reaches an attribute by a comparison inside its document, behind the hops of its
scope. -/
theorem accounts_compares (s : Schema) (r : AttributePath × Bool) :
    Accounts s (fun a => Compares s a ∧ a.1.hops = r.1.hops) (Reaches · r) where
  comparison hc hleaf hr := ⟨hc, (behind_leaf hleaf _ _ hr).symm⟩
  expression _ _ := by
    rintro ⟨l, hl, hr⟩
    cases List.mem_singleton.mp hl
    cases hr
  negation _ _ := .inl

/-! ## Filters that stay -/

theorem ComparesAway.of_descends (hd : Descends s a b) (h : ComparesAway s b) :
    ComparesAway s a := by
  cases h with
  | within hv he haway hr hv' hc => exact .within (.head hd hv) he haway hr hv' hc

/-- A comparison behind other hops stands behind a key that leads away. -/
theorem comparesAway_of_visits (hv : Visits s a b) (hc : Compares s b)
    (hne : b.1.hops ≠ a.1.hops) : ComparesAway s a := by
  induction hv using Relation.ReflTransGen.head_induction_on with
  | refl => exact (hne rfl).elim
  | @head a c hd hv ih =>
    by_cases hhops : c.1.hops = a.1.hops
    · exact (ih (hhops ▸ hne)).of_descends hd
    · cases hd with
      | within he hr =>
        obtain ⟨hops, hinner, haway⟩ := hops_of_role hr
        have hmore : hops ≠ [] := by
          rintro rfl
          exact hhops (hinner.trans (List.append_nil _))
        exact .within .refl he (haway.mp hmore) hr hv hc
      | _ => exact (hhops rfl).elim

/-- A filter stays behind the hops of its scope exactly if its document compares nothing behind a
key that leads away. -/
theorem behind_iff (h : compileValue s scope value = .ok f) :
    f.Behind scope.hops ↔ ¬ComparesAway s (scope, value) := by
  constructor
  · rintro hf ⟨hv, he, haway, hr, hv', hc⟩
    obtain ⟨path, negated, hhops, hreach⟩ := goesAlong_iff_reaches.mp
      (goesAlong_of_compares h (hv.trans (.head (.within he hr) hv')) hc)
    exact hops_ne_of_leadsAway hv haway hr hv' (hhops.symm.trans (hf path negated hreach))
  · intro hn path negated hr
    obtain ⟨b, hv, hc, hhops⟩ := ((inherited_reaches (path, negated)).compositional
      (accounts_compares s (path, negated))).compileValue h hr
    by_contra hne
    exact hn (comparesAway_of_visits hv hc fun heq => hne (hhops.symm.trans heq))

end RelQuery.Filter
