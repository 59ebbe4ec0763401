import RelQuery.Proofs.Filter.Canonical
import RelQuery.Proofs.Filter.Marked
import RelQuery.Proofs.Filter.Ways
import RelQuery.Schema.Build

/-!
# Path keys and nested objects

A path key and objects inside one another are two spellings of one filter: key by key the objects
lead to the scope that the path leads to, and a conjunction of one filter is that filter. With `!!`
in the path key, every comparison is marked as negated.
-/

namespace RelQuery

/-- A value inside an object for each key, the first key outermost. -/
def Document.nest (keys : List String) (value : Document) : Document :=
  keys.foldr (fun key d => .obj [(key, d)]) value

namespace Filter

variable {s : Schema} {m : Model} {scope : Scope} {key : String} {keys tokens hops : List String}
  {value : Document} {f : Filter} {path : Path.Key} {r : Path.Resolved} {negated : Bool}

theorem operatorName?_of_parse (h : Path.Key.parse? key = some path) :
    operatorName? key = none := by
  obtain ⟨sep, hsep, hi⟩ := Path.Key.doubled_of_parse h
  unfold operatorName?
  split
  · rename_i cs heq
    dsimp only
    split
    · rename_i hop
      obtain ⟨hsuffix, -, hname⟩ := hop
      have hcs : ∀ c ∈ cs, c.isAlpha = true := by
        rw [← List.take_append_drop (cs.length - 2) cs, hsuffix]
        exact List.forall_mem_append.mpr
          ⟨List.all_eq_true.mp hname, List.all_eq_true.mp (by decide)⟩
      have hmem : sep ∈ cs := Path.mem_of_doubled_infix (heq ▸ hi)
      have halpha := hcs sep hmem
      rcases List.mem_pair.mp hsep with rfl | rfl <;> cases halpha
    · rfl
  · rfl

theorem ne_expressionKey_of_parse (h : Path.Key.parse? key = some path) :
    key ≠ expressionKey := by
  rintro rfl
  cases h

/-! ## One key -/

theorem canonical_of_compileEntry (h : compileEntry s scope key value = .ok f) : f.Canonical :=
  (kept_canonical.compositional s).entry ((kept_canonical.compositional s).obeys value) h

theorem distinct_of_pairwise {fs : List Filter}
    (h : fs.Pairwise fun f g => (g == f) = false) : distinct fs = fs := by
  have H : ∀ gs, (gs ++ fs).Pairwise (fun f g => (g == f) = false) → append gs fs = gs ++ fs := by
    clear h
    unfold append
    induction fs with
    | nil => exact fun gs _ => (List.append_nil gs).symm
    | cons f fs ih =>
      intro gs h
      have hf : gs.contains f = false := by
        rw [List.contains_eq_any_beq, List.any_eq_false]
        intro g hg
        rw [(List.pairwise_append.mp h).2.2 g hg f List.mem_cons_self]
        exact Bool.false_ne_true
      have hcons : gs ++ [f] ++ fs = gs ++ f :: fs := List.append_cons gs f fs ▸ rfl
      rw [List.foldl_cons, hf, ← hcons]
      exact ih _ (hcons ▸ h)
  exact H [] h

/-- The combination of one canonical filter is that filter. -/
theorem combine_of_canonical {k : Connective} (h : f.Canonical) : combine k [f] = f := by
  by_cases hk : f.connective? = some k
  · cases h with
    | @logical l fs hr _ =>
      cases hk
      have hparts : [logical k fs].flatMap (parts k) = fs := by simp [parts]
      rw [combine, hparts, distinct_of_pairwise hr.distinct]
      split
      · exact (hr.not_single rfl).elim
      · rfl
    | _ => cases hk
  · have hparts : [f].flatMap (parts k) = [f] := by simp [parts_of_ne hk]
    rw [combine, hparts]
    rfl

/-- An object with one entry is compiled as the entry. -/
theorem compileValue_singleton :
    compileValue s scope (.obj [(key, value)]) = compileEntry s scope key value := by
  rw [compileValue, compileFields_cons]
  cases h : compileEntry s scope key value with
  | error e => rfl
  | ok f =>
    rw [ok_bind, compileFields]
    exact congrArg Except.ok (combine_of_canonical (canonical_of_compileEntry h))

theorem compileValue_within {inner : Scope} (h : role s scope key value = .ok (.within inner)) :
    compileValue s scope (.obj [(key, value)]) = compileValue s inner value := by
  rw [compileValue_singleton, compileEntry, h, ok_bind]

/-! ## Keys inside one another -/

/-- A key that is no operator and no expression. -/
def IsField (key : String) : Prop := operatorName? key = none ∧ key ≠ expressionKey

theorem role_of_isField (h : IsField key) (hn : scope.attr = none) :
    role s scope key value = fieldRole s scope key value := by
  simp [role, h.1, h.2, Scope.inDocument, hn]

/-- Keys inside a document lead along it. -/
theorem compileValue_nest_document (hin : scope.inDocument = true) (hkeys : ∀ k ∈ keys, IsField k) :
    compileValue s scope (.nest keys value) =
      compileValue s { scope with documentPath := scope.documentPath ++ keys } value := by
  induction keys generalizing scope with
  | nil => simp [Document.nest]
  | cons key keys ih =>
    rw [List.forall_mem_cons] at hkeys
    have hrole : role s scope key (.nest keys value) =
        .ok (.within { scope with documentPath := scope.documentPath ++ [key] }) := by
      simp [role, hkeys.1.1, hkeys.1.2, hin]
    have hin' : Scope.inDocument { scope with documentPath := scope.documentPath ++ [key] } =
      true := hin
    change compileValue s scope (.obj [(key, .nest keys value)]) = _
    rw [compileValue_within hrole, ih hin' hkeys.2, List.append_assoc, List.singleton_append]

theorem isBracket_nest (h : keys ≠ []) : isBracket (.nest keys value) = true := by
  cases keys with
  | nil => exact (h rfl).elim
  | cons key keys => rfl

/-- Objects inside one another lead where the path of their keys does. -/
theorem compileValue_nest (hw : Path.Walks s m tokens r) (hkeys : ∀ t ∈ tokens, IsField t)
    (hstored : r.attr.isComputed = false ∨ r.documentPath = []) :
    compileValue s ⟨m, hops, none, [], negated⟩ (.nest tokens value) =
      compileValue s ⟨r.target, hops ++ r.aliases, some r.attr, r.documentPath, negated⟩ value := by
  induction hw generalizing hops with
  | @last m token a ha =>
    have hrole : role s ⟨m, hops, none, [], negated⟩ token value =
        .ok (.within ⟨m, hops, some a, [], negated⟩) := by
      rw [role_of_isField (List.forall_mem_singleton.mp hkeys) rfl, fieldRole, ha]
      rfl
    have haliases : hops ++ Path.Resolved.aliases ⟨[], m, a, []⟩ = hops := List.append_nil _
    rw [haliases]
    exact compileValue_within hrole
  | @document m token a keys ha htype hne =>
    rw [List.forall_mem_cons] at hkeys
    have hrole : role s ⟨m, hops, none, [], negated⟩ token (.nest keys value) =
        .ok (.within ⟨m, hops, some a, [], negated⟩) := by
      rw [role_of_isField hkeys.1 rfl, fieldRole, ha]
      rfl
    have hin : Scope.inDocument ⟨m, hops, some a, [], negated⟩ = true := by
      simp [Scope.inDocument, htype, hstored.resolve_right hne]
    have haliases : hops ++ Path.Resolved.aliases ⟨[], m, a, keys⟩ = hops := List.append_nil _
    rw [haliases]
    exact (compileValue_within hrole).trans (compileValue_nest_document hin hkeys.2)
  | @hop m t token hop tokens r ha hhop ht hw ih =>
    rw [List.forall_mem_cons] at hkeys
    have hrole : role s ⟨m, hops, none, [], negated⟩ token (.nest tokens value) =
        .ok (.within ⟨t, hops ++ [hop.name], none, [], negated⟩) := by
      rw [role_of_isField hkeys.1 rfl, fieldRole, ha]
      simp only [hhop, isBracket_nest hw.tokens_ne_nil, if_true, ht, ok_bind]
      rfl
    have haliases : hops ++ Path.Resolved.aliases { r with hops := hop :: r.hops } =
        hops ++ [hop.name] ++ r.aliases := List.append_cons _ _ _
    rw [haliases]
    exact (compileValue_within hrole).trans (ih hkeys.2 hstored)

/-- A path key leads to the scope of the path. -/
theorem compileValue_path (hw : Path.walk s m path.tokens = .ok r)
    (hpath : Path.Key.parse? key = some path) (hattr : m.attribute? key = none)
    (hassoc : m.associationForField? key = none) :
    compileValue s (.root m) (.obj [(key, value)]) =
      compileValue s ⟨r.target, r.aliases, some r.attr, r.documentPath, path.negated⟩ value := by
  have hfield : IsField key := ⟨operatorName?_of_parse hpath, ne_expressionKey_of_parse hpath⟩
  have hrole : role s (.root m) key value =
      .ok (.within ⟨r.target, r.aliases, some r.attr, r.documentPath, path.negated⟩) := by
    have hm : (Scope.root m).model = m := rfl
    rw [role_of_isField hfield rfl, fieldRole, hm, hattr]
    simp only [hassoc, hpath, hw, ok_bind]
    rfl
  exact compileValue_within hrole

/-! ## Two spellings -/

theorem compile_obj {model : String} {fields : List (String × Document)}
    (hm : s.model model = .ok m) :
    compile s model (.obj fields) = compileValue s (.root m) (.obj fields) := by
  rw [compile, hm, ok_bind]
  rfl

/-- A path key and objects inside one another, a key for each token, are two spellings of one
filter: they compile to the same tree, or fail with the same error. With `!!` among the separators
the tree is the same but for the mark of negation on every comparison. -/
theorem compile_nest {model : String} (hm : s.model model = .ok m)
    (hr : Path.resolve s model tokens = .ok r) (hkeys : ∀ t ∈ tokens, IsField t)
    (hstored : r.attr.isComputed = false ∨ r.documentPath = []) (value : Document) :
    (Path.Key.parse? ("__".intercalate tokens) = some ⟨tokens, false⟩ →
      m.attribute? ("__".intercalate tokens) = none →
      m.associationForField? ("__".intercalate tokens) = none →
      compile s model (.obj [("__".intercalate tokens, value)]) =
        compile s model (.nest tokens value)) ∧
    ∀ key, Path.Key.parse? key = some ⟨tokens, true⟩ → m.attribute? key = none →
      m.associationForField? key = none →
      compile s model (.obj [(key, value)]) =
        marked true <$> compile s model (.nest tokens value) := by
  have hresolve : Path.walk s m tokens = .ok r := by
    rw [Path.resolve, hm, ok_bind] at hr
    exact hr
  have hw : Path.Walks s m tokens r := Path.walks_of_walk hresolve
  have hnest : compile s model (.nest tokens value) =
      compileValue s ⟨r.target, r.aliases, some r.attr, r.documentPath, false⟩ value := by
    rw [compile, hm, ok_bind, if_pos (isBracket_nest hw.tokens_ne_nil)]
    exact compileValue_nest hw hkeys hstored
  refine ⟨fun hpath hattr hassoc => ?_, fun key hpath hattr hassoc => ?_⟩
  · rw [compile_obj hm, compileValue_path hresolve hpath hattr hassoc, hnest]
  · rw [compile_obj hm, compileValue_path hresolve hpath hattr hassoc, hnest]
    have hmarked : compileValue s (Scope.marked true
          ⟨r.target, r.aliases, some r.attr, r.documentPath, false⟩) value =
        marked true <$>
          compileValue s ⟨r.target, r.aliases, some r.attr, r.documentPath, false⟩ value :=
      compileValue_marked rfl
    exact hmarked

end Filter

/-! ### Pets, with their owners' contacts and a card made from what is known of them -/

def clinic : Config where
  models := [
    { name := "Owner"
      attributes := [{ name := "id", type := "INTEGER", primaryKey := true },
        { name := "contact", type := "JSON" }] },
    { name := "Pet"
      attributes := [{ name := "id", type := "INTEGER", primaryKey := true },
        { name := "ownerId", type := "INTEGER" }, { name := "tag", type := "STRING" },
        { name := "card", type := "JSON", computed := some ⟨"card_of(tag)", ["tag"]⟩ }]
      associations := [{
        kind := .belongsTo
        target := "Owner"
        declaredName := some "owner"
        foreignKey := "ownerId" }] }]

def clinicSchema : Schema := ⟨clinic.models.map (·.resolve), clinic.options⟩

theorem build_clinic : Schema.build clinic = .ok clinicSchema := by decide

namespace Filter

def ownerCity : Filter :=
  .comparison ⟨⟨["owner"], "contact", ["city"]⟩, .eq, .plain (.str "Oslo"), none, false⟩

theorem compile_ownerCity : compile clinicSchema "Pet"
    (.obj [("owner__contact__city", .str "Oslo")]) = .ok ownerCity := by
  simp only [compile, compileValue, compileFields]
  rfl

theorem compile_nest_ownerCity : ∃ m r,
    clinicSchema.model "Pet" = .ok m ∧
    Path.resolve clinicSchema "Pet" ["owner", "contact", "city"] = .ok r ∧
    (∀ t ∈ ["owner", "contact", "city"], IsField t) ∧ r.attr.isComputed = false ∧
    compile clinicSchema "Pet" (.obj [("owner__contact__city", .str "Oslo")]) = .ok ownerCity ∧
    compile clinicSchema "Pet" (.nest ["owner", "contact", "city"] (.str "Oslo")) =
      .ok ownerCity ∧
    compile clinicSchema "Pet" (.obj [("owner__contact!!city", .str "Oslo")]) =
      .ok (marked true ownerCity) := by
  obtain ⟨m, hm⟩ : ∃ m, clinicSchema.model "Pet" = .ok m := ⟨_, rfl⟩
  obtain ⟨r, hr, hstored⟩ : ∃ r, Path.resolve clinicSchema "Pet" ["owner", "contact", "city"] =
      .ok r ∧ r.attr.isComputed = false := ⟨_, rfl, rfl⟩
  have hkeys : ∀ t ∈ ["owner", "contact", "city"], IsField t := by
    unfold IsField
    decide
  obtain ⟨hnest, hmarked⟩ := compile_nest hm hr hkeys (.inl hstored) (.str "Oslo")
  cases hm
  have hplain := compile_ownerCity.symm.trans (hnest rfl rfl rfl)
  refine ⟨_, r, rfl, hr, hkeys, hstored, compile_ownerCity, hplain.symm, ?_⟩
  rw [hmarked _ rfl rfl rfl, ← hplain]
  rfl

end Filter

end RelQuery
