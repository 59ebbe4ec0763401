import RelQuery.Proofs.Plan.Correlation
import RelQuery.Proofs.Plan.Restricted

/-!
# The list behind one row

The list behind an association field of a row is the list of the target with one more condition,
which ties the rows to the key of the row. For many-to-many associations that is membership in the
link table. For others the key is compiled as a filter under the name of the key on the target: a
scalar gives an equality, but an object or an array is read as a filter of its own, and may say
nothing at all.
-/

namespace RelQuery

namespace Query

universe u

/-- An equality of an attribute with a key, read by the type of the attribute. -/
inductive EqualsKey (s : Schema) (a : Attribute) (key : Document) : Filter → Prop
  | stored {o : Operand} : a.computed = none →
      Operand.ofValue a.type s.options.dialect key a.name = .ok o →
      EqualsKey s a key (.comparison (keyComparison a o))
  | computed {e : Computed} {literal : String} : a.computed = some e →
      Operand.literal a.type .eq key a.name = .ok literal →
      EqualsKey s a key (.computed ⟨⟨[], a.name, []⟩, e.expression, .eq, literal, false⟩)

/-- A condition on the target that ties its rows to the key of a row of the source: an equality of
the key on the target, or membership in the link table. -/
inductive Ties (s : Schema) (assoc : Association) (t : Model) (key : Document) : Filter → Prop
  | equal {a : Attribute} {f : Filter} : assoc.usedLink? = none →
      t.attribute? (assoc.childKey t) = some a → EqualsKey s a key f → Ties s assoc t key f
  | member {link : LinkTable} {literal : String} : assoc.usedLink? = some link →
      keyLiteral key = .ok literal → Ties s assoc t key (.raw (membership t link literal).text)

variable {s : Schema} {t : Model} {assoc : Association} {a : Attribute} {key row : Document}
  {f e : Filter} {p : Plan} {model name : String} {field : Field} {info : ExecutionInfo}

theorem connective?_of_equalsKey (h : EqualsKey s a key f) : f.connective? = none := by
  cases h <;> rfl

theorem connective?_of_ties (h : Ties s assoc t key f) : f.connective? = none := by
  cases h with
  | equal _ _ h => exact connective?_of_equalsKey h
  | member => rfl

/-! ## Correlations -/

theorem equalsKey_of_leaf (hnull : key ≠ .null)
    (h : Filter.leaf s ((Filter.Scope.root t).atAttribute a) .eq key = .ok f) :
    EqualsKey s a key f := by
  have hop : Operand.testForNull .eq key = .eq := by
    cases key with
    | null => exact (hnull rfl).elim
    | _ => rfl
  simp only [Filter.leaf, Filter.Scope.atAttribute, hop] at h
  obtain ⟨_, -, h⟩ := bind_eq_ok.mp h
  split at h
  · rename_i c hc
    obtain ⟨literal, hliteral, h⟩ := bind_eq_ok.mp h
    cases h
    exact .computed hc hliteral
  · rename_i hstored
    simp only [List.isEmpty_nil, Bool.not_true, Operator.isPattern, Bool.or_false,
      Bool.false_eq_true, if_false] at h
    obtain ⟨o, ho, h⟩ := bind_eq_ok.mp h
    cases h
    exact .stored hstored ho

/-- A scalar under the name of an attribute compiles to an equality. -/
theorem equalsKey_of_compile (ht : s.model model = .ok t) (ha : t.attribute? name = some a)
    (hnull : key ≠ .null) (hkey : Filter.isBracket key = false)
    (h : Filter.compile s model (.obj [(name, key)]) = .ok f) : EqualsKey s a key f := by
  obtain ⟨hop, hexp⟩ := Filter.plainKey_of_scalar ht hkey h
  obtain ⟨g, hg, rfl⟩ := Filter.compile_attribute ht hop hexp ha h
  have hholds : Filter.holdsFilters ((Filter.Scope.root t).atAttribute a) key = false := by
    cases key with
    | arr | obj => cases hkey
    | _ => rfl
  have himplied : Filter.impliedOperator key = .eq := by
    cases key with
    | null => exact (hnull rfl).elim
    | arr | obj => cases hkey
    | _ => rfl
  rw [Filter.compileValue_eq_ok_leaf hholds, himplied] at hg
  have hequal := equalsKey_of_leaf hnull hg
  have hne : g.connective? ≠ some .and := connective?_of_equalsKey hequal ▸ nofun
  rwa [Filter.all_singleton hne]

/-- A correlation with a scalar, or through a link table, ties rows to the key. -/
theorem ties_of_correlation (ht : s.model t.name = .ok t)
    (hchild : assoc.childKey t ∈ t.attributeNames) (hnull : key ≠ .null)
    (hkey : assoc.usedLink? = none → Filter.isBracket key = false)
    (h : correlation s assoc t key = .ok e) : Ties s assoc t key e := by
  cases hlink : assoc.usedLink? with
  | some link =>
    simp only [correlation, hlink] at h
    obtain ⟨literal, hliteral, h⟩ := bind_eq_ok.mp h
    cases h
    exact .member hlink hliteral
  | none =>
    simp only [correlation, hlink] at h
    obtain ⟨a, ha⟩ := Option.isSome_iff_exists.mp (Model.attribute?_isSome.mpr hchild)
    exact .equal hlink ha (equalsKey_of_compile ht ha hnull (hkey hlink) h)

theorem parentKeyOf_eq_ok {parent : Model} {name : String}
    (h : parentKeyOf parent assoc name row = .ok key) :
    row.get? (assoc.parentKey parent) = some key ∧ key ≠ .null := by
  unfold parentKeyOf at h
  dsimp only at h
  split at h
  · cases h
  · cases h
  · rename_i value hne hvalue
    cases h
    exact ⟨hvalue, hne⟩

/-! ## The list -/

/-- The filter of the list behind a row says what the filter of the target's list says, and the
correlation with the key of the row. If the key is a scalar, or found through a link table, the
correlation ties the rows to it, and is a conjunct of the filter. -/
theorem associationList_ties {c : Config} (hs : Schema.build c = .ok s)
    (h : associationList s model field row info = .ok p) :
    ∃ parent assoc t key e q, s.model model = .ok parent ∧
      parent.associationForField? field.name = some assoc ∧ s.targetOf assoc = .ok t ∧
      row.get? (assoc.parentKey parent) = some key ∧ correlation s assoc t key = .ok e ∧
      rootList s t.name field info = .ok q ∧ p = { q with filter := p.filter } ∧
      (∀ {α : Type u} [Lattice α] [BoundedOrder α] [Compl α] (v : Valuation α),
        Filter.evalOption v p.filter = Filter.evalOption v q.filter ⊓ e.eval v) ∧
      (assoc.kind = .belongsToMany ∨ Filter.isBracket key = false →
        Ties s assoc t key e ∧
          ∃ f, p.filter = some f ∧ ∃ g ∈ f.conjuncts, Filter.same e g = true) := by
  obtain ⟨parent, assoc, t, key, e, q, hparent, hfield, ht, hkey, he, hq, rfl⟩ :=
    associationList_eq_ok h
  obtain ⟨hrow, hnull⟩ := parentKeyOf_eq_ok hkey
  refine ⟨parent, assoc, t, key, e, q, hparent, requireField_eq_ok.mp hfield, ht, hrow, he, hq,
    rfl, fun v => evalOption_restrict, fun hcase => ?_⟩
  have hmem := Schema.mem_of_model hparent
  have hassoc := mem_of_requireField hfield
  have hscalar : assoc.usedLink? = none → Filter.isBracket key = false := by
    intro hlink
    rcases hcase with hkind | hscalar
    · obtain ⟨link, hlink'⟩ := Schema.link_of_build hs hmem hassoc hkind
      cases hlink.symm.trans hlink'
    · exact hscalar
  have hties := ties_of_correlation (Schema.model_name ht)
    (Schema.childKey_of_build hs hmem hassoc ht) hnull hscalar he
  exact ⟨hties, exists_conjunct_restrict (connective?_of_ties hties ▸ nofun)⟩

/-! ### The files of a folder -/

/-- Folders and files that belong together by a tag, which may be any document. -/
def archive : Config where
  models := [
    { name := "Folder"
      attributes := [{ name := "id", type := "INTEGER", primaryKey := true },
        { name := "tag", type := "JSONB" }]
      associations := [{
        kind := .hasMany
        target := "File"
        declaredName := some "files"
        foreignKey := "tag"
        targetKey := some "tag" }] },
    { name := "File"
      attributes := [{ name := "id", type := "INTEGER", primaryKey := true },
        { name := "tag", type := "JSONB" }] }]

def archiveSchema : Schema := ⟨archive.models.map (·.resolve), archive.options⟩

theorem build_archive : Schema.build archive = .ok archiveSchema := by decide

/-- A list of files whose filter is a variable. -/
def files : Field where
  name := "files"
  arguments := [("query", .object [("where", .var "condition")])]
  selections := [.field "id" none [] []]

def tagged (tag : Document) : Document := .obj [("tag", tag)]

def asksFor (tag : Document) : ExecutionInfo where
  bindings := [("condition", tagged tag)]

def tagIs (tag : String) : Filter :=
  .comparison ⟨⟨[], "tag", []⟩, .eq, .plain (.str tag), some .jsonb, false⟩

def filesPlan (condition : Filter) : Plan where
  model := "File"
  attributes := [.column "id"]
  filter := some condition

theorem compile_tagged (tag : String) :
    Filter.compile archiveSchema "File" (tagged (.str tag)) = .ok (tagIs tag) := by
  simp only [tagged, Filter.compile, Filter.compileValue, Filter.compileFields]
  rfl

theorem rootList_files (tag : String) :
    rootList archiveSchema "File" files (asksFor (.str tag)) = .ok (filesPlan (tagIs tag)) := by
  change (do
    let fs ← (fun f => [f]) <$> Filter.compile archiveSchema "File" (tagged (.str tag))
    Plan.compose archiveSchema ⟨"File", ["id"], ["id"], []⟩ (Filter.all (fs ++ [])).proper?
      { filter := some (tagged (.str tag)) }) = _
  rw [compile_tagged]
  rfl

/-- The files of a folder with a tag, among the files with a tag that the client asks for. -/
theorem associationList_files (key tag : String) :
    associationList archiveSchema "Folder" files (tagged (.str key)) (asksFor (.str tag)) =
      .ok (restrict (filesPlan (tagIs tag)) (tagIs key)) := by
  change (do
    let e ← Filter.compile archiveSchema "File" (tagged (.str key))
    return restrict (← rootList archiveSchema "File" files (asksFor (.str tag))) e) = _
  rw [compile_tagged, rootList_files]
  rfl

def filesOf : Association := ⟨"files", .hasMany, "Folder", "File", "tag", some "tag", none⟩

def folder : Model :=
  ⟨"Folder", "folders", [⟨"id", "id", .integer, false, true, none⟩,
    ⟨"tag", "tag", .jsonb, true, false, none⟩], [filesOf]⟩

def file : Model :=
  ⟨"File", "files", [⟨"id", "id", .integer, false, true, none⟩,
    ⟨"tag", "tag", .jsonb, true, false, none⟩], []⟩

/-- The client asks for files with another tag, and still finds only those of the folder. -/
theorem files_tied : Schema.build archive = .ok archiveSchema ∧
    associationList archiveSchema "Folder" files (tagged (.str "a")) (asksFor (.str "b")) =
      .ok (filesPlan (.logical .and [tagIs "b", tagIs "a"])) ∧
    Ties archiveSchema filesOf file (.str "a") (tagIs "a") ∧
    ∀ v : Valuation Kleene, Filter.eval v (.logical .and [tagIs "b", tagIs "a"]) =
      ((tagIs "b").eval v ⊓ (tagIs "a").eval v) := by
  obtain ⟨parent, assoc, t, key, e, q, hparent, hassoc, ht, hkey, he, hq, -, hvalue, hties⟩ :=
    associationList_ties build_archive (associationList_files "a" "b")
  have hfolder : archiveSchema.model "Folder" = .ok folder := rfl
  cases hfolder.symm.trans hparent
  have hfiles : folder.associationForField? files.name = some filesOf := rfl
  cases hfiles.symm.trans hassoc
  have hfile : archiveSchema.targetOf filesOf = .ok file := rfl
  cases hfile.symm.trans ht
  have ha : (tagged (.str "a")).get? (filesOf.parentKey folder) = some (.str "a") := rfl
  cases ha.symm.trans hkey
  have htag : correlation archiveSchema filesOf file (.str "a") = .ok (tagIs "a") :=
    compile_tagged "a"
  cases htag.symm.trans he
  have hlist : rootList archiveSchema file.name files (asksFor (.str "b")) = _ := rootList_files "b"
  cases hlist.symm.trans hq
  exact ⟨build_archive, associationList_files "a" "b", (hties (.inr rfl)).1, hvalue⟩

/-- Behind a folder whose tag is the empty object stand all files that the client asks for. -/
theorem files_untied : Schema.build archive = .ok archiveSchema ∧
    associationList archiveSchema "Folder" files (tagged (.obj [])) (asksFor (.str "b")) =
      rootList archiveSchema "File" files (asksFor (.str "b")) ∧
    rootList archiveSchema "File" files (asksFor (.str "b")) = .ok (filesPlan (tagIs "b")) := by
  have hempty : Filter.compile archiveSchema "File" (tagged (.obj [])) = .ok .always := by
    simp only [tagged, Filter.compile, Filter.compileValue, Filter.compileFields]
    rfl
  refine ⟨build_archive, ?_, rootList_files "b"⟩
  change (do
    let e ← Filter.compile archiveSchema "File" (tagged (.obj []))
    return restrict (← rootList archiveSchema "File" files (asksFor (.str "b"))) e) = _
  rw [hempty, rootList_files]
  rfl

end Query

end RelQuery
