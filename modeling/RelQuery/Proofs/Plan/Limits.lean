import RelQuery.Proofs.Plan.Trees
import RelQuery.Proofs.Statement.Window

/-!
# Numbers of rows in statements

Numbers of rows are checked when arguments are read. Planning and merging only pass them on, so in
every plan the page and those of its includes have `bigint` numbers, and no statement prints a
number of rows that is none.
-/

namespace RelQuery

variable {s : Schema} {m : Model} {a b p : Plan} {selection : PartialPlan} {args : Arguments}

/-! ## Includes -/

namespace Include

/-- The pages of a node and of all nodes below it have `bigint` numbers. -/
inductive PageFits : Include → Prop
  | node {n : Include} : Bigint.Fits n.limit → Bigint.Fits n.offset →
      (∀ c ∈ n.includes, PageFits c) → PageFits n

/-- The pages of all nodes of a tree have `bigint` numbers, whatever model it is below. -/
def AllFit (_ : Model) (ns : List Include) : Prop := ∀ n ∈ ns, n.PageFits

variable {t parent : Model} {assoc : Association} {a b n n' : Include} {ns ns' bs : List Include}
  {hops : List String} {table : String} {required : Bool}

theorem PageFits.includes (h : n.PageFits) (m : Model) : AllFit m n.includes := by
  obtain ⟨-, -, hi⟩ := h
  exact hi

theorem AllFit.ensurePath (hns : AllFit m ns) (h : ensurePath s required hops m ns = .ok ns') :
    AllFit m ns' := by
  induction hops generalizing m ns ns' with
  | nil =>
    cases h
    exact hns
  | cons hop hops ih =>
    obtain ⟨assoc, t, -, h⟩ := ensurePath_cons_eq_ok h
    have hext : ∀ n : Include, n.PageFits → ∀ n',
        extendNode s required hops assoc t n = .ok n' → n'.PageFits := by
      intro n hn n' h
      obtain ⟨-, includes, hi, rfl⟩ := extendNode_eq_ok h
      obtain ⟨hlimit, hoffset, hbelow⟩ := hn
      exact .node hlimit hoffset (ih (m := t) hbelow hi)
    have hhop : (hopNode assoc t).PageFits :=
      .node Bigint.fits_none Bigint.fits_none (List.forall_mem_nil _)
    exact forall_upsert h hns (fun n hmem _ => hext n (hns n hmem)) (hext _ hhop)

theorem AllFit.requireHops (hns : AllFit m ns) : AllFit m (requireHops hops ns) := by
  induction hops generalizing ns with
  | nil => exact hns
  | cons hop hops ih =>
    refine forall_modifyFirst hns fun n hn => ?_
    obtain ⟨hlimit, hoffset, hi⟩ := hn
    exact .node hlimit hoffset (ih hi)

theorem fits_agree {modifier : Modifier} {x y z : Option Nat} (h : agree modifier x y = .ok z)
    (hx : Bigint.Fits x) (hy : Bigint.Fits y) : Bigint.Fits z := by
  obtain ⟨-, rfl⟩ := agree_eq_ok.mp h
  intro k hk
  rcases Option.or_eq_some_iff.mp hk with hk | ⟨-, hk⟩
  · exact hx k hk
  · exact hy k hk

theorem PageFits.merge (h : merge a b = .ok n) (ha : a.PageFits) (hb : b.PageFits) :
    n.PageFits := by
  induction b generalizing a n with
  | node b ih =>
    obtain ⟨includes, limit, offset, hi, hlimit, hoffset, rfl⟩ := merge_eq_ok h
    obtain ⟨hla, hoa, hia⟩ := ha
    obtain ⟨hlb, hob, hib⟩ := hb
    exact .node (fits_agree hlimit hla hlb) (fits_agree hoffset hoa hob)
      (forall_mergeAll (fun c hc _ _ h _ ha hb => ih c hc h ha hb) hi hia hib)

theorem PageFits.splitPage {pinned : List (List String)} {path : List String} (h : n.PageFits) :
    (Plan.splitPage pinned path n).PageFits := by
  induction h generalizing path with
  | @node n hlimit hoffset hi ih =>
    rcases splitPage_eq pinned path n with heq | ⟨-, heq⟩ <;> rw [heq]
    · exact .node hlimit hoffset hi
    · refine .node hlimit hoffset fun c hc => ?_
      rw [splitPageAll_eq_map] at hc
      obtain ⟨c, hc', rfl⟩ := List.mem_map.mp hc
      exact ih c hc'

theorem PageFits.lower (h : lower s m table n = .ok n') (hn : n.PageFits) : n'.PageFits := by
  induction hn generalizing m table n' with
  | @node n hlimit hoffset hi ih =>
    obtain ⟨assoc, t, filter, includes, -, -, hi', rfl⟩ := lower_eq_ok h
    refine .node hlimit hoffset fun c hc => ?_
    rw [lowerAll_eq_mapM] at hi'
    obtain ⟨c', hc', h⟩ := mem_of_mapM hi' hc
    exact ih c' hc' h

/-- No way to put include trees together makes new numbers of rows. -/
theorem kept_allFit (s : Schema) : Kept s AllFit where
  nil := List.forall_mem_nil _
  ensurePath hns h := AllFit.ensurePath hns h
  requireAll {m hopss ns} hns := by
    induction hopss generalizing ns with
    | nil => exact hns
    | cons hops hopss ih => exact ih (AllFit.requireHops hns)
  mergeAll hns hbs h := forall_mergeAll (fun _ _ _ _ h _ ha hb => .merge h ha hb) h hns hbs
  splitPageAll hns := by
    intro n hn
    rw [splitPageAll_eq_map] at hn
    obtain ⟨n, hn', rfl⟩ := List.mem_map.mp hn
    exact (hns n hn').splitPage
  lowerAll hns h := by
    intro n hn
    rw [lowerAll_eq_mapM] at h
    obtain ⟨n', hn', h⟩ := mem_of_mapM h hn
    exact .lower h (hns n' hn')
  field _ _ _ _ _ hlimit hoffset hi :=
    List.forall_mem_singleton.mpr (.node hlimit hoffset hi)

theorem Below.pageFits (h : Below s m ns parent n) (hns : AllFit m ns) : n.PageFits := by
  induction h with
  | here hn => exact hns _ hn
  | under hc _ _ ih => exact ih ((hns _ hc).includes _)

/-- The numbers that a page prints are `bigint`s. -/
theorem number_le_of_bounds (h : n.PageFits)
    (hlast : ∀ l, n.limit = some l → n.offset.getD 0 + l ≤ 9223372036854775807) :
    ∀ x ∈ n.bounds, x.number ≤ 9223372036854775807 := by
  obtain ⟨-, hoffset, -⟩ := h
  unfold bounds
  split
  · refine List.forall_mem_cons.mpr ⟨?_, fun x hx => ?_⟩
    · change n.offset.getD 0 ≤ 9223372036854775807
      cases ho : n.offset with
      | none => simp
      | some o => exact Nat.le_of_lt_succ (hoffset o ho)
    · obtain ⟨l, hl, rfl⟩ := List.mem_map.mp hx
      exact hlast l (Option.mem_toList.mp hl)
  · exact List.forall_mem_nil _

end Include

/-! ## Plans -/

namespace Query

theorem page_of_applyArguments (h : applyArguments s selection args = .ok p) :
    p.limit = args.limit ∧ p.offset = args.offset := by
  obtain ⟨_, _, _, _, -, -, -, h⟩ := applyArguments_eq_ok h
  obtain ⟨c⟩ := Plan.composition h
  rw [c.plan_eq]
  exact ⟨rfl, rfl⟩

end Query

namespace Plan

/-- The page of a plan has `bigint` numbers. -/
structure PageFits (p : Plan) : Prop where
  limit : Bigint.Fits p.limit
  offset : Bigint.Fits p.offset

theorem pageFits_of_applyArguments (h : Query.applyArguments s selection args = .ok p)
    (hargs : args.PageFits) : p.PageFits := by
  obtain ⟨hlimit, hoffset⟩ := Query.page_of_applyArguments h
  exact ⟨hlimit ▸ hargs.limit, hoffset ▸ hargs.offset⟩

theorem pageFits_of_rootList {model : String} {field : Field} {info : ExecutionInfo}
    (h : Query.rootList s model field info = .ok p) : p.PageFits := by
  obtain ⟨selection, -, h⟩ := bind_eq_ok.mp h
  obtain ⟨args, hargs, h⟩ := bind_eq_ok.mp h
  refine pageFits_of_applyArguments h ?_
  obtain ⟨args?, hargs?, hargs⟩ := bind_eq_ok.mp hargs
  cases hargs
  cases args? with
  | none => exact ⟨Bigint.fits_none, Bigint.fits_none⟩
  | some args => exact Arguments.pageFits_of_ofField hargs?

theorem PageFits.merge (h : merge a b = .ok p) (ha : a.PageFits) (hb : b.PageFits) :
    p.PageFits := by
  obtain ⟨-, includes, group, order, limit, offset, -, -, -, hlimit, hoffset, rfl⟩ :=
    merge_eq_ok h
  exact ⟨Include.fits_agree hlimit ha.limit hb.limit,
    Include.fits_agree hoffset ha.offset hb.offset⟩

theorem Planned.pageFits (h : Planned s p) : p.PageFits := by
  induction h with
  | rootList h => exact pageFits_of_rootList h
  | count h =>
    obtain ⟨m, -, h⟩ := bind_eq_ok.mp h
    obtain ⟨args, -, h⟩ := bind_eq_ok.mp h
    obtain ⟨q, hq, h⟩ := bind_eq_ok.mp h
    cases h
    obtain ⟨hlimit, hoffset⟩ :=
      pageFits_of_applyArguments hq ⟨Bigint.fits_none, Bigint.fits_none⟩
    exact ⟨hlimit, hoffset⟩
  | associationList h =>
    obtain ⟨_, _, _, _, _, q, -, -, -, -, -, hq, rfl⟩ := Query.associationList_eq_ok h
    obtain ⟨hlimit, hoffset⟩ := pageFits_of_rootList hq
    exact ⟨hlimit, hoffset⟩
  | changedList h =>
    obtain ⟨_, _, _, q, -, -, -, hq, rfl⟩ := Event.changedList_eq_ok h
    obtain ⟨hlimit, hoffset⟩ := pageFits_of_rootList hq
    exact ⟨hlimit, hoffset⟩
  | merge _ _ h iha ihb => exact .merge h iha ihb

/-- The plans that can be obtained: of queries and change events, in two stages of a selection that
is planned and arguments that are applied to it, and by merging. -/
inductive Obtained (s : Schema) : Plan → Prop
  | planned {p : Plan} : Planned s p → Obtained s p
  | staged {p : Plan} {selection : PartialPlan} {info : ExecutionInfo} {model : String}
      {selections : List Selection} {filter : Option Filter} {orderPaths : List (List String)}
      {value : Document} {args : Arguments} :
      Include.plan s info model selections filter orderPaths = .ok selection →
      Arguments.parse value = .ok args → Query.applyArguments s selection args = .ok p →
      Obtained s p
  | merge {a b p : Plan} : Obtained s a → Obtained s b → Plan.merge a b = .ok p → Obtained s p

namespace Obtained

theorem pageFits (h : Obtained s p) : p.PageFits := by
  induction h with
  | planned h => exact h.pageFits
  | staged _ hargs h => exact pageFits_of_applyArguments h (Arguments.pageFits_of_parse hargs)
  | merge _ _ h iha ihb => exact .merge h iha ihb

theorem exists_tree (hs : s.Sound) (h : Obtained s p) : ∃ m, p.HasTree s Include.AllFit m := by
  have H := Include.kept_allFit s
  induction h with
  | planned h => exact H.planned hs h
  | staged hsel _ h =>
    obtain ⟨m, hm, hincludes⟩ := H.plan hs hsel
    exact ⟨m, H.applyArguments h hm hincludes⟩
  | merge _ _ h iha ihb =>
    obtain ⟨m, ha⟩ := iha
    obtain ⟨n, hb⟩ := ihb
    exact ⟨m, H.merge h ha hb⟩

end Obtained

/-! ## Statements -/

/-- The end of a statement that returns a page of its rows. -/
def pageSql (limit offset : Option Nat) : Sql :=
  limit.toList.map (fun k => .text (" LIMIT " ++ toString k)) ++
    offset.toList.map fun k => .text (" OFFSET " ++ toString k)

/-- A statement with the page of its plan at its end, if it has one, and `bigint` numbers there. -/
structure EndsWithPage (s : Schema) (p : Plan) (q : Select) (st : Statement) : Prop where
  select : p.select s = .ok q
  page : q.limit = (if p.isCount then none else p.limit) ∧
    q.offset = if p.isCount then none else p.offset
  statement : st =
    ({ q with limit := none, offset := none }.sql ++ pageSql q.limit q.offset).statement
  limit : ∀ k, q.limit = some k → k ≤ 9223372036854775807
  offset : ∀ k, q.offset = some k → k ≤ 9223372036854775807

theorem page_of_select {q : Select} (h : p.select s = .ok q) :
    q.limit = (if p.isCount then none else p.limit) ∧
      q.offset = if p.isCount then none else p.offset := by
  rw [select_steps] at h
  obtain ⟨m, -, h⟩ := bind_eq_ok.mp h
  obtain ⟨items, -, h⟩ := bind_eq_ok.mp h
  obtain ⟨below, -, h⟩ := bind_eq_ok.mp h
  obtain ⟨joins, -, h⟩ := bind_eq_ok.mp h
  obtain ⟨condition, -, h⟩ := bind_eq_ok.mp h
  cases h
  exact ⟨rfl, rfl⟩

theorem sql_eq_append_pageSql (q : Select) :
    q.sql = { q with limit := none, offset := none }.sql ++ pageSql q.limit q.offset := by
  cases hlimit : q.limit <;> cases hoffset : q.offset <;>
    simp [Select.sql, Select.number, pageSql, hlimit, hoffset]

theorem PageFits.exists_endsWithPage {st : Statement} (hp : p.PageFits)
    (h : p.statement s = .ok st) : ∃ q, EndsWithPage s p q st := by
  obtain ⟨q, hq, h⟩ := bind_eq_ok.mp h
  have hpage := page_of_select hq
  have hfits : ∀ k? : Option Nat, Bigint.Fits k? → ∀ k,
      (if p.isCount then none else k?) = some k → k ≤ 9223372036854775807 := by
    intro k? hk? k hk
    split at hk
    · cases hk
    · exact Nat.le_of_lt_succ (hk? k hk)
  refine ⟨q, hq, hpage, ?_, fun k hk => hfits _ hp.limit k (hpage.1 ▸ hk),
    fun k hk => hfits _ hp.offset k (hpage.2 ▸ hk)⟩
  rw [← sql_eq_append_pageSql]
  exact (pure_eq_ok.mp h).symm

/-- No statement prints a number of rows that is no `bigint`: not as the limit or the offset of a
plan, and not as a bound of row numbers in the statement of a separate include, which is refused if
its last number is too large. Whatever page a separate include has, its statement keeps exactly the
rows of this page for every parent. -/
theorem Obtained.page_numbers {c : Config} (hs : Schema.build c = .ok s) (h : Obtained s p) :
    (∀ st, p.statement s = .ok st → ∃ q, EndsWithPage s p q st) ∧
    (∃ m, s.model p.model = .ok m ∧ ∀ parent n, Include.Below s m p.includes parent n →
      n.separate = true → ∀ keys st, n.batchStatement s parent keys = .ok st →
        ∀ x ∈ n.bounds, x.number ≤ 9223372036854775807) ∧
    ∀ parent (n : Include) keys st, n.batchStatement s parent keys = .ok st →
      n.KeepsPage s parent keys st := by
  refine ⟨fun st hst => h.pageFits.exists_endsWithPage hst, ?_,
    fun parent n keys st hst => Include.keepsPage_of_batchStatement hst⟩
  obtain ⟨m, hmodel, hincludes⟩ := h.exists_tree (Schema.sound_of_build hs)
  refine ⟨m, hmodel, fun parent n hn _ keys st hst => ?_⟩
  exact Include.number_le_of_bounds (hn.pageFits hincludes)
    (Include.keepsPage_of_batchStatement hst).last

/-! ### The last page of authors with the last page of books -/

def rowCount (k : Nat) (h : k < Bigint.bound) : Document :=
  .num (.int k (by omega) (by unfold Bigint.bound at h; omega))

def pageArgument (limit offset : Document) : List (String × Argument) :=
  [("query", .object [("limit", .scalar limit), ("offset", .scalar offset)])]

def lastAuthors : Field where
  name := "authors"
  arguments := pageArgument (rowCount 9223372036854775807 (by decide)) (rowCount 1 (by decide))
  selections := [.field "books" none
    (pageArgument (rowCount 9223372036854775806 (by decide)) (rowCount 1 (by decide)))
    [.field "id" none [] []]]

def lastBooks : Include where
  target := "Book"
  name := "books"
  kind := .hasMany
  attributes := ["id"]
  limit := some 9223372036854775806
  offset := some 1
  separate := true

def lastAuthorsPlan : Plan where
  model := "Author"
  attributes := [.column "id"]
  includes := [lastBooks]
  limit := some 9223372036854775807
  offset := some 1

theorem rootList_lastAuthors :
    Query.rootList librarySchema "Author" lastAuthors {} = .ok lastAuthorsPlan := by
  rfl

theorem lastAuthors_page_numbers :
    (∃ st q, lastAuthorsPlan.statement librarySchema = .ok st ∧
      st.text = "SELECT \"Author\".\"id\" AS \"id\" FROM \"authors\" AS \"Author\"" ++
        " LIMIT 9223372036854775807 OFFSET 1" ∧
      EndsWithPage librarySchema lastAuthorsPlan q st) ∧
    lastBooks.bounds = [.above 1, .upTo 9223372036854775807] ∧
    ∃ m st, librarySchema.model "Author" = .ok m ∧
      lastBooks.batchStatement librarySchema m [] = .ok st ∧
      lastBooks.KeepsPage librarySchema m [] st ∧
      ∀ x ∈ lastBooks.bounds, x.number ≤ 9223372036854775807 := by
  obtain ⟨hplan, ⟨m, hm, hnumbers⟩, hkeeps⟩ :=
    Obtained.page_numbers build_library (.planned (.rootList rootList_lastAuthors))
  obtain ⟨st, hst, htext⟩ : ∃ st, lastAuthorsPlan.statement librarySchema = .ok st ∧
      st.text = "SELECT \"Author\".\"id\" AS \"id\" FROM \"authors\" AS \"Author\"" ++
        " LIMIT 9223372036854775807 OFFSET 1" := ⟨_, rfl, rfl⟩
  obtain ⟨q, hq⟩ := hplan st hst
  obtain ⟨st', hst'⟩ : ∃ st, lastBooks.batchStatement librarySchema m [] = .ok st := by
    cases hm
    exact ⟨_, rfl⟩
  exact ⟨⟨st, q, hst, htext, hq⟩, rfl, m, st', hm, hst', hkeeps m lastBooks [] st' hst',
    hnumbers m lastBooks (.here (List.mem_singleton_self _)) rfl [] st' hst'⟩

end Plan

end RelQuery
