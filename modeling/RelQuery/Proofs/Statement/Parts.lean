import RelQuery.Proofs.Include.Steps
import RelQuery.Statement.Batch

/-!
# Statements part by part

The functions that write a statement as sequences of steps: the models are found, the columns and
joins of the include tree follow, and then the condition of a filter, if there is one.
-/

namespace RelQuery

theorem Sql.suffix_join_concat {separator : String} {ps : Sql} {pss : List Sql} :
    ps <:+ join separator (pss ++ [ps]) := by
  induction pss with
  | nil => exact List.suffix_rfl
  | cons qs pss ih =>
    have hjoin : join separator (qs :: pss ++ [ps]) =
        qs ++ .text separator :: join separator (pss ++ [ps]) := by
      cases pss <;> rfl
    rw [hjoin]
    exact (ih.trans (List.suffix_cons _ _)).trans (List.suffix_append _ _)

namespace Filter

variable {s : Schema} {m : Model} {table : String} {f? : Option Filter} {c? : Option Condition}

/-- The condition of a filter, if there is one. -/
def condition? (s : Schema) (m : Model) (table : String) (f? : Option Filter) :
    Except PlanError (Option Condition) :=
  match f? with
  | some f => some <$> f.condition s m table
  | none => .ok none

theorem rel_condition? (h : condition? s m table f? = .ok c?) :
    Option.Rel (fun f c => f.condition s m table = .ok c) f? c? := by
  cases f? with
  | none =>
    cases h
    exact .none
  | some f =>
    obtain ⟨c, hc, rfl⟩ := map_eq_ok.mp h
    exact .some hc

end Filter

namespace Include

variable {s : Schema} {parent m : Model} {assoc : Association} {n : Include} {table key : String}
  {keys : List Document}

theorem columns_steps (hs : n.separate = false) : columns s parent table key n =
    s.follow parent n.name >>= fun step =>
    ownColumns step.2 (joinName table [n.name]) (columnKey key n.name) n.attributes >>= fun here =>
    columnsAll s step.2 (joinName table [n.name]) (columnKey key n.name) n.includes >>=
      fun below => .ok (here ++ below) := by
  cases n
  simp only at hs
  simp [columns, hs]
  rfl

theorem joins_steps (hs : n.separate = false) : joins s parent table n =
    s.follow parent n.name >>= fun step =>
    Filter.condition? s step.2 (joinName table [n.name]) n.filter >>= fun condition =>
    joinsAll s step.2 (joinName table [n.name]) n.includes >>= fun below =>
    .ok (joinOf step.1 parent step.2 table n.required condition :: below) := by
  obtain ⟨_, _, _, _, filter, _, _, _, _, _⟩ := n
  simp only at hs
  cases filter <;> simp [joins, hs, Filter.condition?] <;> rfl

/-- The joins of a node are its own, with the condition of its filter, and those below it. -/
theorem joins_eq_ok {js : List Join} (h : joins s parent table n = .ok js)
    (hs : n.separate = false) (hf : s.follow parent n.name = .ok (assoc, m)) :
    ∃ condition below,
      Filter.condition? s m (joinName table [n.name]) n.filter = .ok condition ∧
      joinsAll s m (joinName table [n.name]) n.includes = .ok below ∧
      js = joinOf assoc parent m table n.required condition :: below := by
  rw [joins_steps hs, hf, ok_bind] at h
  obtain ⟨condition, hcondition, h⟩ := bind_eq_ok.mp h
  obtain ⟨below, hbelow, h⟩ := bind_eq_ok.mp h
  exact ⟨condition, below, hcondition, hbelow, (Except.ok.inj h).symm⟩

theorem batch_steps : n.batch s parent keys =
    s.follow parent n.name >>= fun step =>
    (n.attributes.mapM fun name => (SelectItem.column name).sql step.2 step.2.name) >>=
      fun items =>
    columnsAll s step.2 step.2.name "" n.includes >>= fun below =>
    joinsAll s step.2 step.2.name n.includes >>= fun joins =>
    Filter.condition? s step.2 step.2.name n.filter >>= fun filter =>
    n.page >>= fun page =>
    .ok {
      columns := items ++ below
      table := step.2.table
      name := step.2.name
      link := step.1.usedLink?.map fun link =>
        (link.table, linkName step.2.name, ⟨linkName step.2.name, link.otherKey⟩,
          ⟨step.2.name, step.2.columnOf step.2.primaryKey⟩)
      joins
      parent := match step.1.usedLink? with
        | some link => ⟨linkName step.2.name, link.foreignKey⟩
        | none => ⟨step.2.name, step.2.columnOf (step.1.childKey step.2)⟩
      primaryKey := ⟨step.2.name, step.2.columnOf step.2.primaryKey⟩
      keys
      keyCast := (parent.attribute? (step.1.parentKey parent)).bind (·.type.placeholderCast?)
      filter
      page } := by
  unfold batch
  cases n.filter <;> simp [Filter.condition?] <;> rfl

/-- The statement of a separate node has the name of its model, the condition of its filter and the
joins of the nodes below it. -/
theorem batch_eq_ok {b : Batch} (h : n.batch s parent keys = .ok b) :
    ∃ assoc t, s.follow parent n.name = .ok (assoc, t) ∧ b.name = t.name ∧
      joinsAll s t t.name n.includes = .ok b.joins ∧
      Filter.condition? s t t.name n.filter = .ok b.filter := by
  rw [batch_steps] at h
  obtain ⟨⟨assoc, t⟩, hf, h⟩ := bind_eq_ok.mp h
  obtain ⟨items, -, h⟩ := bind_eq_ok.mp h
  obtain ⟨below, -, h⟩ := bind_eq_ok.mp h
  obtain ⟨joins, hjoins, h⟩ := bind_eq_ok.mp h
  obtain ⟨filter, hfilter, h⟩ := bind_eq_ok.mp h
  obtain ⟨page, -, h⟩ := bind_eq_ok.mp h
  cases h
  exact ⟨assoc, t, hf, rfl, hjoins, hfilter⟩

end Include

namespace Plan

variable {s : Schema} {p : Plan}

theorem select_steps : p.select s =
    s.model p.model >>= fun m =>
    p.attributes.mapM (·.sql m m.name) >>= fun items =>
    (if p.isCount then .ok [] else Include.columnsAll s m m.name "" p.includes) >>= fun below =>
    Include.joinsAll s m m.name p.includes >>= fun joins =>
    Filter.condition? s m m.name p.filter >>= fun condition =>
    .ok {
      columns := items ++ below
      table := m.table
      name := m.name
      joins
      condition
      group := p.group.map fun key => ⟨m.name, m.columnOf key⟩
      order := if p.isCount then [] else p.order.map (·.sql m.name)
      limit := if p.isCount then none else p.limit
      offset := if p.isCount then none else p.offset } := by
  unfold select
  cases p.isCount <;> cases p.filter <;> simp [Filter.condition?] <;> rfl

/-- The statement of a plan has the name of its model, the condition of its filter and the joins of
its nodes. -/
theorem select_eq_ok {q : Select} (h : p.select s = .ok q) : ∃ m, s.model p.model = .ok m ∧
    q.name = m.name ∧ Include.joinsAll s m m.name p.includes = .ok q.joins ∧
    Filter.condition? s m m.name p.filter = .ok q.condition ∧
    q.order ⊆ p.order.map (·.sql m.name) := by
  rw [select_steps] at h
  obtain ⟨m, hm, h⟩ := bind_eq_ok.mp h
  obtain ⟨items, -, h⟩ := bind_eq_ok.mp h
  obtain ⟨below, -, h⟩ := bind_eq_ok.mp h
  obtain ⟨joins, hjoins, h⟩ := bind_eq_ok.mp h
  obtain ⟨condition, hcondition, h⟩ := bind_eq_ok.mp h
  cases h
  refine ⟨m, hm, rfl, hjoins, hcondition, ?_⟩
  dsimp only
  split
  · exact List.nil_subset _
  · exact List.Subset.refl _

end Plan

end RelQuery
