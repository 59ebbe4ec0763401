import RelQuery.Path
import RelQuery.Proofs.Except

/-!
# Lookups in a schema

What a lookup finds has the name that was looked up. Hops are followed one by one, and a path leads
to the model that its hops reach.
-/

namespace RelQuery

/-! ## Members of a model -/

namespace Model

variable {m : Model} {a : Association} {name : String}

theorem attribute?_isSome : (m.attribute? name).isSome ↔ name ∈ m.attributeNames := by
  simp [attribute?, attributeNames]

theorem name_of_attribute? {a : Attribute} (h : m.attribute? name = some a) : a.name = name := by
  unfold attribute? at h
  simpa using List.find?_some h

/-- An attribute that was found by a name is found by its own. -/
theorem attribute?_name {a : Attribute} (h : m.attribute? name = some a) :
    m.attribute? a.name = some a := by
  rwa [name_of_attribute? h]

/-- The name of an attribute with a column of its own. -/
def Stored (m : Model) (name : String) : Prop :=
  ∃ a, m.attribute? name = some a ∧ a.computed = none

theorem name_mem_of_attribute? {a : Attribute} (h : m.attribute? name = some a) :
    a.name ∈ m.attributeNames :=
  List.mem_map_of_mem (List.mem_of_find?_eq_some h)

theorem requireAttribute_eq_ok {a : Attribute} :
    m.requireAttribute name = .ok a ↔ m.attribute? name = some a := by
  unfold requireAttribute
  cases m.attribute? name <;> simp

theorem exists_requireAttribute (h : name ∈ m.attributeNames) :
    ∃ a, m.requireAttribute name = .ok a := by
  obtain ⟨a, ha⟩ := Option.isSome_iff_exists.mp (attribute?_isSome.mpr h)
  exact ⟨a, requireAttribute_eq_ok.mpr ha⟩

theorem name_of_association? (h : m.association? name = some a) : a.name = name := by
  unfold association? at h
  simpa using List.find?_some h

theorem mem_of_association? (h : m.association? name = some a) : a ∈ m.associations :=
  List.mem_of_find?_eq_some h

theorem requireAssociation_eq_ok :
    m.requireAssociation name = .ok a ↔ m.association? name = some a := by
  unfold requireAssociation
  cases m.association? name <;> simp

theorem association?_of_field (h : m.associationForField? name = some a) :
    m.association? a.name = some a := by
  have h : m.association? (m.associationName name) = some a := h
  rwa [name_of_association? h]

end Model

/-! ## Models -/

namespace Schema

variable {s : Schema} {m t : Model} {a : Association} {name hop : String} {hops : List String}

theorem model_eq_ok : s.model name = .ok m ↔ s.model? name = some m := by
  unfold model
  cases s.model? name <;> simp

theorem mem_of_model (h : s.model name = .ok m) : m ∈ s.models :=
  List.mem_of_find?_eq_some (model_eq_ok.mp h)

theorem name_of_model (h : s.model name = .ok m) : m.name = name := by
  rw [model_eq_ok, model?] at h
  simpa using List.find?_some h

/-- A model that was found by a name is found by its own. -/
theorem model_name (h : s.model name = .ok m) : s.model m.name = .ok m := by
  rwa [name_of_model h]

theorem follow_eq_ok : s.follow m name = .ok (a, t) ↔
    m.association? name = some a ∧ s.model a.target = .ok t := by
  simp only [follow, targetOf, bind_eq_ok, Model.requireAssociation_eq_ok, pure_eq_ok]
  constructor
  · rintro ⟨b, hb, n, hn, h⟩
    cases h
    exact ⟨hb, hn⟩
  · rintro ⟨ha, ht⟩
    exact ⟨a, ha, t, ht, rfl⟩

theorem name_of_follow (h : s.follow m name = .ok (a, t)) : a.name = name :=
  Model.name_of_association? (follow_eq_ok.mp h).1

theorem follow_of_field (h : m.associationForField? name = some a)
    (ht : s.targetOf a = .ok t) : s.follow m a.name = .ok (a, t) :=
  follow_eq_ok.mpr ⟨Model.association?_of_field h, ht⟩

/-! ## Hops -/

theorem modelAt_cons : s.modelAt m (hop :: hops) = .ok t ↔
    ∃ a n, s.follow m hop = .ok (a, n) ∧ s.modelAt n hops = .ok t := by
  simp [modelAt, List.foldlM_cons, bind_eq_ok]

theorem modelAt_append {n : Model} {hops' : List String} (h : s.modelAt m hops = .ok n) :
    s.modelAt m (hops ++ hops') = s.modelAt n hops' := by
  have H : s.modelAt m (hops ++ hops') = s.modelAt m hops >>= fun n => s.modelAt n hops' :=
    List.foldlM_append
  rw [H, h, ok_bind]

theorem modelAt_singleton (h : s.follow m hop = .ok (a, t)) : s.modelAt m [hop] = .ok t :=
  modelAt_cons.mpr ⟨a, t, h, rfl⟩

theorem mem_of_follow (h : s.follow m name = .ok (a, t)) : t ∈ s.models :=
  mem_of_model (follow_eq_ok.mp h).2

theorem mem_of_modelAt (hm : m ∈ s.models) (h : s.modelAt m hops = .ok t) : t ∈ s.models := by
  induction hops generalizing m with
  | nil =>
    cases h
    exact hm
  | cons hop hops ih =>
    obtain ⟨a, n, hf, h⟩ := modelAt_cons.mp h
    exact ih (mem_of_follow hf) h

end Schema

/-! ## Paths -/

variable {s : Schema} {m : Model} {tokens : List String} {r : Path.Resolved}

/-- A path followed token by token: to an attribute, on into its documents, or along an association
first. -/
inductive Path.Walks (s : Schema) : Model → List String → Resolved → Prop
  | last {m : Model} {token : String} {a : Attribute} : m.attribute? token = some a →
      Walks s m [token] ⟨[], m, a, []⟩
  | document {m : Model} {token : String} {a : Attribute} {keys : List String} :
      m.attribute? token = some a → a.type.isStructured = true → keys ≠ [] →
      Walks s m (token :: keys) ⟨[], m, a, keys⟩
  | hop {m t : Model} {token : String} {hop : Association} {tokens : List String} {r : Resolved} :
      m.attribute? token = none → m.associationForField? token = some hop →
      s.targetOf hop = .ok t → Walks s t tokens r →
      Walks s m (token :: tokens) { r with hops := hop :: r.hops }

theorem Path.walks_of_walk (h : walk s m tokens = .ok r) : Walks s m tokens r := by
  induction tokens generalizing m r with
  | nil => cases h
  | cons token tokens ih =>
    cases tokens with
    | nil =>
      obtain ⟨a, ha, h⟩ := bind_eq_ok.mp h
      cases h
      exact .last (Model.requireAttribute_eq_ok.mp ha)
    | cons next rest =>
      rw [walk] at h
      split at h
      · rename_i a ha
        split at h
        · rename_i htype
          cases h
          exact .document ha htype nofun
        · cases h
      · rename_i ha
        split at h
        · cases h
        · rename_i hop hhop
          obtain ⟨t, ht, h⟩ := bind_eq_ok.mp h
          obtain ⟨r, hr, h⟩ := bind_eq_ok.mp h
          cases h
          exact .hop ha hhop ht (ih hr)

namespace Path.Walks

theorem tokens_ne_nil (h : Walks s m tokens r) : tokens ≠ [] := by
  cases h <;> nofun

theorem modelAt (h : Walks s m tokens r) : s.modelAt m r.aliases = .ok r.target := by
  induction h with
  | hop _ hhop ht _ ih => exact Schema.modelAt_cons.mpr ⟨_, _, Schema.follow_of_field hhop ht, ih⟩
  | _ => rfl

theorem attribute? (h : Walks s m tokens r) : r.target.attribute? r.attr.name = some r.attr ∧
    (r.documentPath ≠ [] → r.attr.type.isStructured = true) := by
  induction h with
  | last ha => exact ⟨Model.attribute?_name ha, fun h => (h rfl).elim⟩
  | document ha htype _ => exact ⟨Model.attribute?_name ha, fun _ => htype⟩
  | hop _ _ _ _ ih => exact ih

end Path.Walks

/-- A path leads to the model that its hops reach. -/
theorem Path.modelAt_walk (h : walk s m tokens = .ok r) : s.modelAt m r.aliases = .ok r.target :=
  (walks_of_walk h).modelAt

/-- A path ends at an attribute of the model that it leads to, and goes on only into documents. -/
theorem Path.attribute?_walk (h : walk s m tokens = .ok r) :
    r.target.attribute? r.attr.name = some r.attr ∧
      (r.documentPath ≠ [] → r.attr.type.isStructured = true) :=
  (walks_of_walk h).attribute?

theorem Path.mem_attributes_walk (h : walk s m tokens = .ok r) : r.attr ∈ r.target.attributes :=
  List.mem_of_find?_eq_some (attribute?_walk h).1

end RelQuery
