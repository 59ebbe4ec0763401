import RelQuery.Proofs.Statement.Parts

/-!
# The page of every parent

The statement of a separate include numbers the rows of each parent and keeps those whose numbers
are within bounds. The bounds are natural numbers: the last one is added up before it is printed,
and refused unless it is a `bigint`. So every parent gets its own page, at any offset and limit.
-/

namespace RelQuery

/-! ## Bounds of row numbers -/

/-- A condition on the number of a row among those of its parent. -/
inductive RowBound
  | above (n : Nat)
  | upTo (n : Nat)

namespace RowBound

/-- The number that is printed. -/
def number : RowBound → Nat
  | above n | upTo n => n

/-- Whether the row with a number is kept. -/
def admits : RowBound → Nat → Bool
  | above n, k => n < k
  | upTo n, k => k ≤ n

def sql : RowBound → Sql
  | above n => [.name "__rn__", .text (" > " ++ toString n)]
  | upTo n => [.name "__rn__", .text (" <= " ++ toString n)]

end RowBound

/-- A statement that keeps the rows of all parents whose numbers meet all bounds, in the order of
parents and numbers. Without bounds all rows are kept, and none is numbered. -/
def Batch.within (b : Batch) (bounds : List RowBound) : Sql :=
  if bounds.isEmpty then b.rows
  else
    .text "SELECT * FROM (" :: b.rows ++ [.text ") AS ", .name "paged", .text " WHERE "] ++
      Sql.join " AND " (bounds.map (·.sql)) ++
      [.text " ORDER BY ", .name "__parent__", .text ", ", .name "__rn__"]

/-- The column that numbers the rows of each parent, in the order of their primary keys. -/
def Batch.numbering (b : Batch) : Sql :=
  [.text "ROW_NUMBER() OVER (PARTITION BY ", b.parent.piece, .text " ORDER BY ",
    b.primaryKey.piece, .text ")", .text " AS ", .name "__rn__"]

/-- For a page the rows are numbered. -/
theorem Batch.numbering_infix {b : Batch} (h : b.page.isSome = true) : b.numbering <:+: b.rows := by
  have hcolumns : b.rowNumber <:+ Sql.join ", "
      (b.columns ++ [Sql.named [b.parent.piece] parentKeyColumn] ++ [b.rowNumber]) :=
    Sql.suffix_join_concat
  obtain ⟨before, hbefore⟩ := hcolumns
  unfold rows
  rw [if_pos h]
  dsimp only
  rw [← hbefore]
  exact ⟨.text "SELECT " :: before, _, by simp only [List.append_assoc, List.cons_append]; rfl⟩

namespace Include

/-- Whether a page is asked for. -/
def isPaged (n : Include) : Bool := n.limit.isSome || n.offset.isSome

/-- The bounds of the numbers of a page. -/
def bounds (n : Include) : List RowBound :=
  if n.isPaged then
    .above (n.offset.getD 0) :: n.limit.toList.map fun l => .upTo (n.offset.getD 0 + l)
  else []

/-- The page of some rows. -/
def pageOf {α : Type} (n : Include) (rows : List α) : List α :=
  match n.limit with
  | some l => (rows.drop (n.offset.getD 0)).take l
  | none => rows.drop (n.offset.getD 0)

variable {s : Schema} {parent : Model} {n : Include} {keys : List Document} {b : Batch}
  {st : Statement} {page : Option (Nat × Option Nat)}

/-- Row numbers count from one on. Those of a page begin after the offset, and there are as many as
the limit says. -/
theorem bounds_admit (k : Nat) (hk : 1 ≤ k) : (∀ x ∈ n.bounds, x.admits k = true) ↔
    n.offset.getD 0 + 1 ≤ k ∧ ∀ l, n.limit = some l → k ≤ n.offset.getD 0 + l := by
  unfold bounds isPaged
  cases n.limit with
  | some l =>
    simp only [Option.isSome_some, Bool.true_or, if_true, Option.toList_some, List.map_cons,
      List.map_nil, List.forall_mem_cons, List.not_mem_nil, false_imp_iff, implies_true, and_true,
      RowBound.admits, decide_eq_true_eq, Option.some.injEq, forall_eq']
    exact Iff.rfl
  | none =>
    cases n.offset with
    | some o =>
      simp only [Option.isSome_some, Bool.or_true, if_true, Option.toList_none, List.map_nil,
        List.forall_mem_singleton, RowBound.admits, decide_eq_true_eq, Option.getD_some,
        reduceCtorEq, false_imp_iff, implies_true, and_true]
      exact Iff.rfl
    | none =>
      simp only [Option.isSome_none, Bool.or_self, Bool.false_eq_true, if_false, Option.getD_none,
        Nat.zero_add, reduceCtorEq, false_imp_iff, implies_true, and_true, List.not_mem_nil]
      exact iff_of_true trivial hk

/-! ## Every parent has its own page -/

section
variable {α κ : Type} [DecidableEq κ] (key : α → κ)

/-- Rows with their numbers, where each is counted among those with its key, also among the ones
before. -/
def numbered : List α → List α → List (α × Nat)
  | _, [] => []
  | before, a :: rows =>
    (a, before.countP (key · == key a) + 1) :: numbered (before ++ [a]) rows

/-- The rows that meet all bounds. They come in the order in which the rows of a parent are
numbered, that of their primary keys. -/
def kept (bounds : List RowBound) (rows : List α) : List α :=
  ((numbered key [] rows).filter fun r => bounds.all (·.admits r.2)).map (·.1)

/-- The rows of one parent are numbered one after the other, whatever rows are between them. -/
theorem filter_numbered (before rows : List α) (p : κ) :
    (numbered key before rows).filter (fun r => key r.1 == p) =
      (rows.filter (key · == p)).zipIdx (before.countP (key · == p) + 1) := by
  induction rows generalizing before with
  | nil => rfl
  | cons a rows ih =>
    rw [numbered, List.filter_cons, List.filter_cons, ih, List.countP_append, List.countP_singleton]
    by_cases ha : key a = p
    · simp [ha]
    · simp [ha]

end

/-! ### Numbers within bounds -/

section
variable {α : Type} (rows : List α) (i k : Nat)

theorem filter_above_zipIdx :
    (rows.zipIdx (i + 1)).filter (fun r => (RowBound.above k).admits r.2) =
    (rows.drop (k - i)).zipIdx (max i k + 1) := by
  induction rows generalizing i with
  | nil => simp
  | cons a rows ih =>
    rw [List.zipIdx_cons, List.filter_cons, ih]
    by_cases hk : k ≤ i
    · have hzero : k - i = 0 := Nat.sub_eq_zero_of_le hk
      have hzero' : k - (i + 1) = 0 := by omega
      have hmax : max i k = i := by omega
      have hmax' : max (i + 1) k = i + 1 := by omega
      simp [RowBound.admits, Nat.lt_succ_of_le hk, hzero, hzero', hmax, hmax']
    · have hsucc : k - i = k - (i + 1) + 1 := by omega
      have hmax : max (i + 1) k = max i k := by omega
      have hlt : ¬k < i + 1 := by omega
      simp [RowBound.admits, hsucc, hmax, hlt]

theorem filter_upTo_zipIdx :
    (rows.zipIdx (i + 1)).filter (fun r => (RowBound.upTo k).admits r.2) =
    (rows.take (k - i)).zipIdx (i + 1) := by
  induction rows generalizing i with
  | nil => simp
  | cons a rows ih =>
    rw [List.zipIdx_cons, List.filter_cons, ih]
    by_cases hk : k ≤ i
    · have hzero : k - i = 0 := Nat.sub_eq_zero_of_le hk
      have hzero' : k - (i + 1) = 0 := by omega
      have hlt : ¬i + 1 ≤ k := by omega
      simp [RowBound.admits, hzero, hzero', hlt]
    · have hsucc : k - i = k - (i + 1) + 1 := by omega
      have hle : i + 1 ≤ k := by omega
      simp [RowBound.admits, hsucc, hle]

end

/-- Numbered from one on, the rows within the bounds of a page are the page. -/
theorem filter_bounds_zipIdx {α : Type} (rows : List α) :
    ((rows.zipIdx 1).filter fun r => n.bounds.all (·.admits r.2)).map (·.1) = n.pageOf rows := by
  unfold bounds pageOf isPaged
  cases hlimit : n.limit with
  | some l =>
    have hsplit : (fun r : α × Nat => ([RowBound.above (n.offset.getD 0),
          .upTo (n.offset.getD 0 + l)]).all (·.admits r.2)) =
        fun r => (RowBound.upTo (n.offset.getD 0 + l)).admits r.2 &&
          (RowBound.above (n.offset.getD 0)).admits r.2 := by
      funext r
      simp [Bool.and_comm]
    have habove := filter_above_zipIdx rows 0 (n.offset.getD 0)
    simp only [Nat.zero_add, Nat.sub_zero, Nat.zero_max] at habove
    simp only [Option.isSome_some, Bool.true_or, if_true, Option.toList_some, List.map_cons,
      List.map_nil]
    rw [hsplit, ← List.filter_filter, habove, filter_upTo_zipIdx, Nat.add_sub_cancel_left]
    simp
  | none =>
    cases hoffset : n.offset with
    | some o =>
      have habove := filter_above_zipIdx rows 0 o
      simp only [Nat.zero_add, Nat.sub_zero] at habove
      simp [habove]
    | none => simp

/-- Of the rows of every parent its page is kept. -/
theorem kept_bounds {α κ : Type} [DecidableEq κ] (key : α → κ) (rows : List α) (p : κ) :
    (kept key n.bounds rows).filter (key · == p) = n.pageOf (rows.filter (key · == p)) := by
  have hmine := filter_numbered key [] rows p
  rw [List.countP_nil, Nat.zero_add] at hmine
  unfold kept
  rw [← filter_bounds_zipIdx, ← hmine, List.filter_map, List.filter_filter, List.filter_filter]
  congr 2
  funext r
  exact Bool.and_comm _ _

/-! ## The statement -/

theorem page_eq_ok (h : n.page = .ok page) :
    (∀ l, n.limit = some l → n.offset.getD 0 + l < Bigint.bound) ∧
    page = if n.isPaged then
      some (n.offset.getD 0, n.limit.map (n.offset.getD 0 + ·)) else none := by
  unfold Include.page at h
  unfold isPaged
  cases hlimit : n.limit with
  | some l =>
    rw [hlimit] at h
    dsimp only at h
    split at h
    · cases h
      refine ⟨fun l' hl' => ?_, by simp⟩
      cases hl'
      assumption
    · cases h
  | none =>
    rw [hlimit] at h
    cases h
    cases n.offset <;> simp

theorem page_of_batch (h : n.batch s parent keys = .ok b) : n.page = .ok b.page := by
  rw [batch_steps] at h
  obtain ⟨_, -, h⟩ := bind_eq_ok.mp h
  obtain ⟨items, -, h⟩ := bind_eq_ok.mp h
  obtain ⟨below, -, h⟩ := bind_eq_ok.mp h
  obtain ⟨joins, -, h⟩ := bind_eq_ok.mp h
  obtain ⟨filter, -, h⟩ := bind_eq_ok.mp h
  obtain ⟨page, hpage, h⟩ := bind_eq_ok.mp h
  cases h
  exact hpage

/-- The statement of a separate node keeps the rows within the bounds of its page. -/
theorem sql_of_batch (h : n.batch s parent keys = .ok b) : b.sql = b.within n.bounds := by
  obtain ⟨-, hpage⟩ := page_eq_ok (page_of_batch h)
  unfold Batch.sql Batch.within bounds
  rw [hpage]
  cases n.isPaged with
  | false => rfl
  | true => cases n.limit <;> simp [Sql.join, RowBound.sql, rowNumberColumn, parentKeyColumn]

theorem numbering_of_batch (h : n.batch s parent keys = .ok b) (hb : n.bounds ≠ []) :
    b.numbering <:+: b.rows := by
  obtain ⟨-, hpage⟩ := page_eq_ok (page_of_batch h)
  refine Batch.numbering_infix ?_
  rw [hpage]
  unfold bounds at hb
  split at hb
  · rw [if_pos ‹_›]
    rfl
  · exact absurd rfl hb

/-- A statement that keeps of the rows of every parent the page of a node, by bounds that it
prints. The last one is a `bigint`. -/
structure KeepsPage (s : Schema) (parent : Model) (n : Include) (keys : List Document)
    (st : Statement) : Prop where
  statement : ∃ b, n.batch s parent keys = .ok b ∧ st = (b.within n.bounds).statement ∧
    (n.bounds ≠ [] → b.numbering <:+: b.rows)
  last : ∀ l, n.limit = some l → n.offset.getD 0 + l ≤ 9223372036854775807
  admits : ∀ k, 1 ≤ k → ((∀ x ∈ n.bounds, x.admits k = true) ↔
    n.offset.getD 0 + 1 ≤ k ∧ ∀ l, n.limit = some l → k ≤ n.offset.getD 0 + l)
  kept : ∀ {α κ : Type} [DecidableEq κ] (key : α → κ) (rows : List α) (p : κ),
    (kept key n.bounds rows).filter (key · == p) = n.pageOf (rows.filter (key · == p))

theorem keepsPage_of_batchStatement (h : n.batchStatement s parent keys = .ok st) :
    n.KeepsPage s parent keys st where
  statement := by
    obtain ⟨b, hb, h⟩ := bind_eq_ok.mp h
    refine ⟨b, hb, ?_, numbering_of_batch hb⟩
    rw [← sql_of_batch hb]
    exact (pure_eq_ok.mp h).symm
  last l hl := by
    obtain ⟨b, hb, -⟩ := bind_eq_ok.mp h
    exact Nat.le_of_lt_succ ((page_eq_ok (page_of_batch hb)).1 l hl)
  admits := bounds_admit
  kept := kept_bounds

end Include

end RelQuery
