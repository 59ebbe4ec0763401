import RelQuery.Proofs.Plan.Conforming
import RelQuery.Proofs.Statement.JoinNames

/-!
# Tables have distinct names

Each table of a statement has a name of its own, unless a model with a link table joins an
association called `through`: then the link table and the association have one name. Association
names with arrows can make other paths look alike, and are left out.
-/

namespace RelQuery

open Include (Apart Below JoinedBelow LinkApart)

variable {s : Schema} {p : Plan}

/-- Every plan has a statement. Its tables have distinct names exactly if no link table has the name
of a joined association, and so do those of the statements of its separate includes. -/
theorem distinct_names_of_build {c : Config} (hs : Schema.build c = .ok s)
    (h : Plan.Planned s p) : ∃ m q, s.model p.model = .ok m ∧ p.select s = .ok q ∧
      ((∀ assoc n, JoinedBelow s m p.includes assoc n → ArrowFree n.name) →
        (q.names.Nodup ↔ Apart s m p.includes)) ∧
      ∀ parent n, Below s m p.includes parent n → n.separate = true →
        ∃ assoc t, s.follow parent n.name = .ok (assoc, t) ∧
          ((∀ assoc' c, JoinedBelow s t n.includes assoc' c → ArrowFree c.name) →
            ∀ keys b, n.batch s parent keys = .ok b →
              (b.names.Nodup ↔ LinkApart assoc n ∧ Apart s t n.includes)) := by
  obtain ⟨_, hwritable⟩ := h.writable (Schema.sound_of_build hs)
  obtain ⟨st, hst⟩ := hwritable.exists_statement
  obtain ⟨q, hq, -⟩ := bind_eq_ok.mp hst
  obtain ⟨m, hp⟩ := h.regular (Include.filterClosed_true s)
  refine ⟨m, q, hp.model, hq, fun hfree => ?_, fun parent n hn _ => ?_⟩
  · obtain ⟨m', hm', hname, hjoins, -⟩ := Plan.select_eq_ok hq
    cases hp.model.symm.trans hm'
    have hnames : q.names =
        (rootPaths false (Include.tablePathsAll s m p.includes)).map (joinName m.name) := by
      rw [Select.names, hname, hp.includes.names_joinsAll hjoins]
      rfl
    rw [hnames, hp.includes.nodup_names hfree,
      nodup_rootPaths Include.nil_notMem_tablePathsAll, hp.includes.nodup_tablePathsAll]
    simp
  · have hroot := hn.rooted hp.includes
    obtain ⟨assoc, t, hf⟩ := hroot.exists_follow
    have hns := hroot.includes hf
    refine ⟨assoc, t, hf, fun hfree keys b hb => ?_⟩
    rw [Include.names_of_batch hroot hb hf, hns.nodup_names hfree, Include.nodup_rootPaths_iff hns,
      hns.nodup_tablePathsAll]

/-! ### Orders with tags that have a parent -/

def tagging : Config where
  models := [{
      name := "Order"
      attributes := [{ name := "id", type := "INTEGER", primaryKey := true }]
      associations := [{
        kind := .belongsToMany
        target := "Tag"
        declaredName := some "tags"
        foreignKey := "order_id"
        link := some ⟨"order_tags", "order_id", "tag_id"⟩ }] }, {
      name := "Tag"
      attributes := [{ name := "id", type := "INTEGER", primaryKey := true },
        { name := "parentId", type := "INTEGER" }]
      associations := [{
        kind := .belongsTo
        target := "Tag"
        declaredName := some "through"
        foreignKey := "parentId" }] }]

def taggingSchema : Schema := ⟨tagging.models.map (·.resolve), tagging.options⟩

theorem build_tagging : Schema.build tagging = .ok taggingSchema := by decide

/-- Orders with their tags, and below each tag what `below` selects. -/
def taggedOrders (below : List Selection) : Field where
  name := "list"
  selections := [.field "id" none [] [], .field "tags" none [] (.field "id" none [] [] :: below)]

def throughNode : Include where
  target := "Tag"
  name := "through"
  kind := .belongsTo
  attributes := ["id"]

def taggedPlan (attributes : List String) (below : List Include) : Plan where
  model := "Order"
  attributes := [.column "id"]
  includes := [{
    target := "Tag"
    name := "tags"
    kind := .belongsToMany
    attributes
    includes := below }]

theorem rootList_taggedOrders :
    Query.rootList taggingSchema "Order" (taggedOrders []) {} = .ok (taggedPlan ["id"] []) := by
  rfl

/-- The tables of orders and their tags have distinct names, although the tags have a link table. -/
theorem orders_distinct_names : ∃ q, (taggedPlan ["id"] []).select taggingSchema = .ok q ∧
    q.names.Nodup := by
  obtain ⟨m, q, hm, hq, hnames, -⟩ :=
    distinct_names_of_build build_tagging (.rootList rootList_taggedOrders)
  have hjoined : ∀ assoc n, JoinedBelow taggingSchema m (taggedPlan ["id"] []).includes assoc n →
      n.name = "tags" ∧ n.includes = [] := by
    intro assoc n hn
    cases hn with
    | here hmem =>
      cases List.mem_singleton.mp hmem
      exact ⟨rfl, rfl⟩
    | under hmem _ _ hn =>
      cases List.mem_singleton.mp hmem
      cases hn with
      | here hmem => cases hmem
      | under hmem => cases hmem
  refine ⟨q, hq, (hnames fun assoc n hn => ?_).mpr fun assoc n hn _ c hc => ?_⟩
  · rw [(hjoined assoc n hn).1]
    exact arrowFree_of_notMem (by decide)
  · rw [(hjoined assoc n hn).2] at hc
    cases hc

theorem rootList_taggedOrders_through : Query.rootList taggingSchema "Order"
    (taggedOrders [.field "through" none [] [.field "id" none [] []]]) {} =
      .ok (taggedPlan ["id", "parentId"] [throughNode]) := by
  rfl

/-- The link table of the tags has the name of their parents. -/
theorem orders_through_not_distinct : Schema.build tagging = .ok taggingSchema ∧
    Query.rootList taggingSchema "Order"
      (taggedOrders [.field "through" none [] [.field "id" none [] []]]) {} =
        .ok (taggedPlan ["id", "parentId"] [throughNode]) ∧
    ∃ q, (taggedPlan ["id", "parentId"] [throughNode]).select taggingSchema = .ok q ∧
      (Sql.named [.name q.table] q.name ++ q.joins.flatMap (·.sql)).statement.text =
        "\"orders\" AS \"Order\" LEFT OUTER JOIN (\"order_tags\" AS \"Order->tags->through\" " ++
        "INNER JOIN \"tags\" AS \"Order->tags\" " ++
        "ON \"Order->tags\".\"id\" = \"Order->tags->through\".\"tag_id\") " ++
        "ON \"Order->tags->through\".\"order_id\" = \"Order\".\"id\" " ++
        "LEFT OUTER JOIN \"tags\" AS \"Order->tags->through\" " ++
        "ON \"Order->tags->through\".\"id\" = \"Order->tags\".\"parentId\"" ∧
      q.names = ["Order", "Order->tags", "Order->tags->through", "Order->tags->through"] ∧
      ¬q.names.Nodup :=
  ⟨build_tagging, rootList_taggedOrders_through, _, rfl, by decide +kernel, by decide, by decide⟩

end RelQuery
