import RelQuery.Include.Planner
import RelQuery.Plan.Merge
import RelQuery.Proofs.Filter.Writable
import RelQuery.Proofs.Schema.Sound
import RelQuery.Proofs.Statement.Parts

/-!
# Include trees that can be written

A node can be written below a model if the model has its association, the target has its
attributes, its filter has a condition, and the same holds below it. Every step of the planner keeps
that, and of such a node the columns and joins can be written.
-/

namespace RelQuery

namespace Include

/-- Whether a node below `parent` can be written, with all nodes below it. -/
inductive Writable (s : Schema) : Model → Include → Prop
  | node {parent m : Model} {assoc : Association} {n : Include}
      (follow : s.follow parent n.name = .ok (assoc, m))
      (attributes : n.attributes ⊆ m.attributeNames)
      (filter : ∀ f, n.filter = some f → f.Writable s m)
      (includes : ∀ c ∈ n.includes, Writable s m c) : Writable s parent n

variable {s : Schema} {parent m t : Model} {assoc : Association} {a b n n' : Include}
  {ns ns' bs : List Include} {hops : List String} {table key : String}

namespace Writable

theorem attributes (h : n.Writable s parent) (hf : s.follow parent n.name = .ok (assoc, m)) :
    n.attributes ⊆ m.attributeNames := by
  obtain ⟨hf', ha, -, -⟩ := h
  cases hf.symm.trans hf'
  exact ha

theorem filter (h : n.Writable s parent) (hf : s.follow parent n.name = .ok (assoc, m)) :
    ∀ f, n.filter = some f → f.Writable s m := by
  obtain ⟨hf', -, hfilter, -⟩ := h
  cases hf.symm.trans hf'
  exact hfilter

theorem includes (h : n.Writable s parent) (hf : s.follow parent n.name = .ok (assoc, m)) :
    ∀ c ∈ n.includes, c.Writable s m := by
  obtain ⟨hf', -, -, hi⟩ := h
  cases hf.symm.trans hf'
  exact hi

end Writable

/-! ## Columns and joins -/

theorem exists_ownColumns {attributes : List String} (h : attributes ⊆ m.attributeNames)
    (table key : String) : ∃ cs, ownColumns m table key attributes = .ok cs := by
  refine exists_mapM fun name hname => ?_
  obtain ⟨a, ha⟩ := Model.exists_requireAttribute (h hname)
  exact ⟨Sql.named (a.selected m table) (key ++ "." ++ name), by simp [ha]⟩

theorem exists_columnsAll (H : ∀ n ∈ ns, ∃ cs, columns s parent table key n = .ok cs) :
    ∃ cs, columnsAll s parent table key ns = .ok cs := by
  obtain ⟨css, hcss⟩ := exists_mapM H
  exact ⟨css.flatten, by rw [columnsAll_eq_mapM, hcss, map_ok]⟩

theorem Writable.exists_columns (h : n.Writable s parent) (table key : String) :
    ∃ cs, columns s parent table key n = .ok cs := by
  induction h generalizing table key with
  | @node parent m assoc n hf ha _ _ ih =>
    cases hs : n.separate with
    | false =>
      obtain ⟨here, hhere⟩ := exists_ownColumns ha (joinName table [n.name])
        (columnKey key n.name)
      obtain ⟨below, hbelow⟩ := exists_columnsAll fun c hc =>
        ih c hc (joinName table [n.name]) (columnKey key n.name)
      exact ⟨here ++ below, by simp [columns_steps hs, hf, hhere, hbelow]⟩
    | true => exact ⟨[], columns_of_separate hs⟩

theorem exists_joinsAll (H : ∀ n ∈ ns, ∃ js, joins s parent table n = .ok js) :
    ∃ js, joinsAll s parent table ns = .ok js := by
  obtain ⟨jss, hjss⟩ := exists_mapM H
  exact ⟨jss.flatten, by rw [joinsAll_eq_mapM, hjss, map_ok]⟩

theorem Writable.exists_joins (h : n.Writable s parent) (table : String) :
    ∃ js, joins s parent table n = .ok js := by
  induction h generalizing table with
  | @node parent m assoc n hf _ hfilter _ ih =>
    cases hs : n.separate with
    | false =>
      obtain ⟨below, hbelow⟩ := exists_joinsAll fun c hc => ih c hc (joinName table [n.name])
      rw [joins_steps hs, hf, ok_bind]
      cases hn : n.filter with
      | none =>
        exact ⟨joinOf assoc parent m table n.required none :: below,
          by simp [Filter.condition?, hbelow]⟩
      | some f =>
        obtain ⟨c, hc⟩ := (hfilter f hn).exists_condition (joinName table [n.name])
        exact ⟨joinOf assoc parent m table n.required (some c) :: below,
          by simp [Filter.condition?, hc, hbelow]⟩
    | true => exact ⟨[], joins_of_separate hs⟩

/-! ## The statement of a separate node -/

/-- The statement of a node that can be written is refused only for its page. -/
theorem Writable.exists_batchStatement (h : n.Writable s parent) (keys : List Document) :
    (∃ st, n.batchStatement s parent keys = .ok st) ↔ ∃ page, n.page = .ok page := by
  obtain ⟨hf, ha, hfilter, hi⟩ := h
  rename_i m assoc
  obtain ⟨items, hitems⟩ : ∃ items,
      (n.attributes.mapM fun name => (SelectItem.column name).sql m m.name) = .ok items := by
    refine exists_mapM fun name hname => ?_
    obtain ⟨a, ha⟩ := Model.exists_requireAttribute (ha hname)
    exact ⟨Sql.named (a.selected m m.name) name, by simp [SelectItem.sql, ha]⟩
  obtain ⟨below, hbelow⟩ := exists_columnsAll fun c hc => (hi c hc).exists_columns m.name ""
  obtain ⟨joins, hjoins⟩ := exists_joinsAll fun c hc => (hi c hc).exists_joins m.name
  unfold batchStatement batch
  simp only [hf, ok_bind, hitems, hbelow, hjoins]
  cases hn : n.filter with
  | none => cases n.page <;> simp
  | some f =>
    obtain ⟨c, hc⟩ := (hfilter f hn).exists_condition m.name
    cases n.page <;> simp [hc]

end Include

end RelQuery
