import RelQuery.Proofs.Schema.FieldNames

/-!
# Where a path leads

A path follows fields that are no attributes from one model to the next, and ends at the first token
that is an attribute; keys after it lead into its documents. It fails in two ways: it goes on past
an attribute without documents, or it comes to a token that is neither an attribute nor a way on.
-/

namespace RelQuery

namespace Model

variable {m : Model} {a : Association} {field : String}

/-- The association that a field names: the last one that is shown as the field or, if none is, the
one with that name. -/
inductive Names (m : Model) (field : String) (a : Association) : Prop
  | shown : a ∈ m.associations → a.fieldName = field →
      (∀ b, [a, b].Sublist m.associations → b.fieldName ≠ field) → Names m field a
  | unmapped : a ∈ m.associations → a.name = field →
      (∀ b ∈ m.associations, b.fieldName ≠ field) → Names m field a

theorem findRev?_eq_none (h : ∀ b ∈ m.associations, b.fieldName ≠ field) :
    m.associations.findRev? (·.fieldName == field) = none := by
  rw [List.findRev?_eq_find?_reverse, List.find?_eq_none]
  exact fun b hb heq => h b (List.mem_reverse.mp hb) (beq_iff_eq.mp heq)

theorem names_iff (hnames : (m.associations.map (·.name)).Nodup) :
    m.Names field a ↔ m.associationForField? field = some a := by
  constructor
  · rintro (⟨ha, rfl, hlast⟩ | ⟨ha, rfl, hnone⟩)
    · exact (associationForField?_fieldName_iff hnames ha).mpr hlast
    · rw [associationForField?, associationName, findRev?_eq_none hnone]
      exact association?_name hnames ha
  · intro h
    have ha := mem_of_association? h
    by_cases hshown : ∃ b ∈ m.associations, b.fieldName = field
    · obtain ⟨b, hb, rfl⟩ := hshown
      have hlast := h
      rw [associationForField?_eq_findRev? hnames hb] at hlast
      rw [List.findRev?_eq_find?_reverse] at hlast
      have hfound := List.find?_some hlast
      have hfield : a.fieldName = b.fieldName := beq_iff_eq.mp hfound
      rw [← hfield] at h
      exact .shown ha hfield
        (hfield ▸ (associationForField?_fieldName_iff hnames ha).mp h)
    · have hnone : ∀ b ∈ m.associations, b.fieldName ≠ field :=
        fun b hb heq => hshown ⟨b, hb, heq⟩
      rw [associationForField?, associationName, findRev?_eq_none hnone] at h
      exact .unmapped ha (name_of_association? h) hnone

end Model

namespace Path

/-- Fields followed from a model, none of them an attribute of the model reached so far and each
naming an association of it. -/
inductive Follows (s : Schema) : Model → List String → List Association → Model → Prop
  | here {m : Model} : Follows s m [] [] m
  | hop {m t n : Model} {field : String} {fields : List String} {a : Association}
      {hops : List Association} : field ∉ m.attributeNames → m.Names field a →
      s.targetOf a = .ok t → Follows s t fields hops n →
      Follows s m (field :: fields) (a :: hops) n

/-- A token that is an attribute, the last token unless the attribute holds documents. -/
def EndsAt (t : Model) (token : String) (keys : List String) (a : Attribute) : Prop :=
  t.attribute? token = some a ∧ (keys = [] ∨ a.type ∈ [.json, .jsonb])

/-- A token that is an attribute without documents, and not the last token. -/
def Barred (t : Model) (token : String) (keys : List String) : Prop :=
  ∃ a, t.attribute? token = some a ∧ keys ≠ [] ∧ a.type ∉ [.json, .jsonb]

/-- A token that is neither an attribute nor, unless it is the last one, an association. -/
def Unknown (t : Model) (token : String) (keys : List String) : Prop :=
  token ∉ t.attributeNames ∧ (keys = [] ∨ ∀ a, ¬t.Names token a)

variable {c : Config} {s : Schema} {m t : Model} {token : String}
  {fields keys tokens : List String} {hops : List Association} {a : Attribute}
  {assoc : Association} {r : Resolved} {e : PlanError}

theorem isStructured_iff {type : ScalarType} :
    type.isStructured = true ↔ type ∈ [.json, .jsonb] := by
  cases type <;> simp [ScalarType.isStructured]

theorem attribute?_eq_none (h : token ∉ m.attributeNames) : m.attribute? token = none :=
  Option.not_isSome_iff_eq_none.mp (mt Model.attribute?_isSome.mp h)

/-- The way to the rest of a path, put before what the rest resolves to. -/
def Resolved.behind (hops : List Association) (r : Resolved) : Resolved :=
  { r with hops := hops ++ r.hops }

theorem walk_hop (hattr : token ∉ m.attributeNames)
    (hassoc : m.associationForField? token = some assoc) (ht : s.targetOf assoc = .ok t)
    (hkeys : keys ≠ []) :
    walk s m (token :: keys) = (·.behind [assoc]) <$> walk s t keys := by
  obtain ⟨next, rest, rfl⟩ := List.exists_cons_of_ne_nil hkeys
  rw [walk, attribute?_eq_none hattr]
  simp only [hassoc, ht, ok_bind]
  exact bind_pure_comp _ _

theorem walk_endsAt (h : EndsAt m token keys a) :
    walk s m (token :: keys) = .ok ⟨[], m, a, keys⟩ := by
  obtain ⟨ha, hkeys⟩ := h
  cases keys with
  | nil => rw [walk, Model.requireAttribute_eq_ok.mpr ha]; rfl
  | cons key keys =>
    have htype := isStructured_iff.mpr (hkeys.resolve_left (List.cons_ne_nil _ _))
    simp [walk, ha, htype]

theorem walk_barred (h : Barred m token keys) :
    walk s m (token :: keys) = .error (.unreachable m.name token) := by
  obtain ⟨a, ha, hkeys, htype⟩ := h
  obtain ⟨next, rest, rfl⟩ := List.exists_cons_of_ne_nil hkeys
  rw [← isStructured_iff] at htype
  simp [walk, ha, htype]

theorem walk_unknown (hnames : (m.associations.map (·.name)).Nodup) (h : Unknown m token keys) :
    walk s m (token :: keys) = .error (m.unknownField token) := by
  obtain ⟨hattr, hkeys⟩ := h
  cases keys with
  | nil => simp [walk, Model.requireAttribute, attribute?_eq_none hattr]
  | cons key keys =>
    have hnone : m.associationForField? token = none := by
      refine Option.eq_none_iff_forall_ne_some.mpr fun assoc hassoc => ?_
      exact hkeys.resolve_left (List.cons_ne_nil _ _) assoc ((Model.names_iff hnames).mpr hassoc)
    simp [walk, attribute?_eq_none hattr, hnone]

section
variable (h : Schema.build c = .ok s) (hm : m ∈ s.models)
include h hm

/-- Fields that can be followed lead to the model at which the rest of the path is resolved. -/
theorem walk_follows (hfollows : Follows s m fields hops t) (token : String)
    (keys : List String) :
    t ∈ s.models ∧
      walk s m (fields ++ token :: keys) = (·.behind hops) <$> walk s t (token :: keys) := by
  induction hfollows with
  | here => exact ⟨hm, (id_map _).symm⟩
  | hop hattr hassoc ht _ ih =>
    obtain ⟨hmem, ih⟩ := ih (Schema.mem_of_model ht)
    rw [Model.names_iff (Schema.nodup_associations_of_build h hm)] at hassoc
    refine ⟨hmem, ?_⟩
    rw [List.cons_append, walk_hop hattr hassoc ht (by simp), ih, Functor.map_map]
    rfl

/-- Every path comes to a token at which it is decided. -/
theorem exists_decided (htokens : tokens ≠ []) : ∃ fields token keys hops t,
    tokens = fields ++ token :: keys ∧ Follows s m fields hops t ∧
      ((∃ a, EndsAt t token keys a) ∨ Barred t token keys ∨ Unknown t token keys) := by
  induction tokens generalizing m with
  | nil => exact (htokens rfl).elim
  | cons token keys ih =>
    cases hattr : m.attribute? token with
    | some a =>
      refine ⟨[], token, keys, [], m, rfl, .here, ?_⟩
      by_cases hends : keys = [] ∨ a.type ∈ [.json, .jsonb]
      · exact .inl ⟨a, hattr, hends⟩
      · rw [not_or] at hends
        exact .inr (.inl ⟨a, hattr, hends⟩)
    | none =>
      have hname : token ∉ m.attributeNames := by
        rw [← Model.attribute?_isSome, hattr]
        nofun
      by_cases hon : keys ≠ [] ∧ ∃ assoc, m.Names token assoc
      · obtain ⟨hkeys, assoc, hassoc⟩ := hon
        have hnames := Schema.nodup_associations_of_build h hm
        have hmem := Model.mem_of_association? ((Model.names_iff hnames).mp hassoc)
        obtain ⟨_, _, target, -, -, ht, -⟩ := Schema.exists_target_of_build h hm hmem
        obtain ⟨fields, last, rest, hops, t, rfl, hfollows, hend⟩ :=
          ih (Schema.mem_of_model ht) hkeys
        exact ⟨token :: fields, last, rest, assoc :: hops, t, rfl,
          .hop hname hassoc ht hfollows, hend⟩
      · refine ⟨[], token, keys, [], m, rfl, .here, .inr (.inr ⟨hname, ?_⟩)⟩
        rwa [not_and_or, not_not, not_exists] at hon

/-! ## The ways a path ends -/

theorem walk_eq_ok_iff (htokens : tokens ≠ []) : walk s m tokens = .ok r ↔ ∃ fields token,
    tokens = fields ++ token :: r.documentPath ∧ Follows s m fields r.hops r.target ∧
      EndsAt r.target token r.documentPath r.attr := by
  constructor
  · intro hr
    obtain ⟨fields, token, keys, hops, t, rfl, hfollows, hend⟩ := exists_decided h hm htokens
    obtain ⟨ht, hwalk⟩ := walk_follows h hm hfollows token keys
    rw [hwalk] at hr
    obtain ⟨a, hend⟩ | hend | hend := hend
    · rw [walk_endsAt hend] at hr
      cases hr
      exact ⟨fields, token, rfl, by simpa [Resolved.behind] using hfollows, hend⟩
    · rw [walk_barred hend] at hr
      cases hr
    · rw [walk_unknown (Schema.nodup_associations_of_build h ht) hend] at hr
      cases hr
  · rintro ⟨fields, token, rfl, hfollows, hend⟩
    rw [(walk_follows h hm hfollows _ _).2, walk_endsAt hend]
    simp [Resolved.behind]

theorem walk_eq_error_iff (htokens : tokens ≠ []) : walk s m tokens = .error e ↔
    ∃ fields token keys hops t, tokens = fields ++ token :: keys ∧ Follows s m fields hops t ∧
      (Barred t token keys ∧ e = .unreachable t.name token ∨
        Unknown t token keys ∧ e = .unknownField t.name token t.attributeNames) := by
  constructor
  · intro he
    obtain ⟨fields, token, keys, hops, t, rfl, hfollows, hend⟩ := exists_decided h hm htokens
    obtain ⟨ht, hwalk⟩ := walk_follows h hm hfollows token keys
    refine ⟨fields, token, keys, hops, t, rfl, hfollows, ?_⟩
    rw [hwalk] at he
    obtain ⟨a, hend⟩ | hend | hend := hend
    · rw [walk_endsAt hend] at he
      cases he
    · rw [walk_barred hend] at he
      cases he
      exact .inl ⟨hend, rfl⟩
    · rw [walk_unknown (Schema.nodup_associations_of_build h ht) hend] at he
      cases he
      exact .inr ⟨hend, rfl⟩
  · rintro ⟨fields, token, keys, hops, t, rfl, hfollows, hend⟩
    obtain ⟨ht, hwalk⟩ := walk_follows h hm hfollows token keys
    rw [hwalk]
    obtain ⟨hend, rfl⟩ | ⟨hend, rfl⟩ := hend
    · rw [walk_barred hend]
      rfl
    · rw [walk_unknown (Schema.nodup_associations_of_build h ht) hend]
      rfl

end

/-- A path resolves exactly if it follows fields to an attribute, with keys after it only inside
documents, and then to what it has followed. Otherwise it fails where it is barred by an attribute
without documents, or at the token that is unknown to the model it has reached. -/
theorem resolve_exact (h : Schema.build c = .ok s) (model : String) (tokens : List String) :
    (∀ r, resolve s model tokens = .ok r ↔ ∃ m, s.model model = .ok m ∧ ∃ fields token,
      tokens = fields ++ token :: r.documentPath ∧ Follows s m fields r.hops r.target ∧
        EndsAt r.target token r.documentPath r.attr) ∧
    ∀ m, s.model model = .ok m → tokens ≠ [] → ∀ e, resolve s model tokens = .error e ↔
      ∃ fields token keys hops t, tokens = fields ++ token :: keys ∧ Follows s m fields hops t ∧
        (Barred t token keys ∧ e = .unreachable t.name token ∨
          Unknown t token keys ∧ e = .unknownField t.name token t.attributeNames) := by
  constructor
  · intro r
    rw [resolve, bind_eq_ok]
    constructor
    · rintro ⟨m, hm, hr⟩
      have htokens : tokens ≠ [] := (walks_of_walk hr).tokens_ne_nil
      exact ⟨m, hm, (walk_eq_ok_iff h (Schema.mem_of_model hm) htokens).mp hr⟩
    · rintro ⟨m, hm, hr⟩
      obtain ⟨fields, token, htokens, -⟩ := id hr
      have hne : tokens ≠ [] := htokens ▸ List.append_ne_nil_of_right_ne_nil _ nofun
      exact ⟨m, hm, (walk_eq_ok_iff h (Schema.mem_of_model hm) hne).mpr hr⟩
  · intro m hm htokens e
    rw [resolve, hm, ok_bind]
    exact walk_eq_error_iff h (Schema.mem_of_model hm) htokens

/-! ### Letters and their writers -/

/-- Each writer has letters, each letter a writer and a document about its seal. -/
def letters : Config where
  models := [
    { name := "Writer"
      attributes := [{ name := "id", type := "INTEGER", primaryKey := true }]
      associations := [{ kind := .hasMany, target := "Letter", foreignKey := "writerId" }] },
    { name := "Letter"
      attributes := [{ name := "id", type := "INTEGER", primaryKey := true },
        { name := "writerId", type := "INTEGER" }, { name := "seal", type := "JSONB" }]
      associations := [{ kind := .belongsTo, target := "Writer", foreignKey := "writerId" }] }]

def lettersSchema : Schema := ⟨letters.models.map (·.resolve), letters.options⟩

theorem build_letters : Schema.build letters = .ok lettersSchema := by decide

/-- Round in a circle to a key in a document, on past an attribute without documents, and to a
token that is nothing. -/
theorem letters_resolved :
    (∃ r m fields token, resolve lettersSchema "Writer"
        ["letters", "writer", "letters", "seal", "colour"] = .ok r ∧
      r.aliases = ["letters", "writer", "letters"] ∧ r.documentPath = ["colour"] ∧
      lettersSchema.model "Writer" = .ok m ∧ Follows lettersSchema m fields r.hops r.target ∧
      EndsAt r.target token r.documentPath r.attr) ∧
    (∃ token keys t, Barred t token keys ∧
      resolve lettersSchema "Writer" ["letters", "id", "year"] =
        .error (.unreachable t.name token)) ∧
    ∃ token keys t, Unknown t token keys ∧
      resolve lettersSchema "Writer" ["letters", "year"] =
        .error (.unknownField t.name token t.attributeNames) := by
  refine ⟨?_, ?_, ?_⟩
  · obtain ⟨m, hm, fields, token, -, hfollows, hend⟩ :=
      ((resolve_exact build_letters "Writer"
        ["letters", "writer", "letters", "seal", "colour"]).1 _).mp rfl
    exact ⟨_, m, fields, token, rfl, rfl, rfl, hm, hfollows, hend⟩
  · obtain ⟨_, token, keys, _, t, -, -, ⟨hend, he⟩ | ⟨-, he⟩⟩ :=
      ((resolve_exact build_letters "Writer" ["letters", "id", "year"]).2 _ rfl nofun _).mp rfl
    · exact ⟨token, keys, t, hend, congrArg _ he⟩
    · cases he
  · obtain ⟨_, token, keys, _, t, -, -, ⟨-, he⟩ | ⟨hend, he⟩⟩ :=
      ((resolve_exact build_letters "Writer" ["letters", "year"]).2 _ rfl nofun _).mp rfl
    · cases he
    · exact ⟨token, keys, t, hend, congrArg _ he⟩

end Path

end RelQuery
