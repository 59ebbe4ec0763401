import RelQuery.Proofs.Filter.Leaves
import RelQuery.Proofs.Filter.Value

/-!
# Lowered filters

Lowering puts the text of a comparison with a computed attribute in its place. It is the text that
the comparison is written as under the same name. Lowering also combines the operands of a
connective anew, and comparisons that differ may have one text, so that a lowered filter can have
fewer leaves; its value, by the texts of the leaves, is the same.
-/

namespace RelQuery

universe u

variable {s : Schema} {m : Model} {table : String}

/-- The same values, but a comparison with a computed attribute has that of the text it is written
as, where the statement calls `m` by the name `table`. -/
def Valuation.written {α : Type u} (v : Valuation α) (s : Schema) (m : Model) (table : String) :
    Valuation α where
  comparison := v.comparison
  computed c :=
    match (Filter.computed c).condition s m table with
    | .ok (.atom [.text text]) => v.raw text
    | _ => v.computed c
  raw := v.raw
  comparison_congr := v.comparison_congr

namespace Filter

variable {c : ComputedComparison} {f g l : Filter}

/-- A comparison with a computed attribute is lowered to the text that it is written as. -/
theorem lower_computed_eq_ok (h : (computed c).lower s m table = .ok g) : ∃ text, g = .raw text ∧
    (computed c).condition s m table = .ok (.atom [.text text]) := by
  obtain ⟨target, htarget, h⟩ := bind_eq_ok.mp h
  refine ⟨_, (Except.ok.inj h).symm, ?_⟩
  rw [condition, htarget]
  rfl

/-- Every leaf of a filter that is lowered is lowered. -/
theorem lower_of_mem_leaves (h : f.lower s m table = .ok g) (hl : l ∈ f.leaves) :
    ∃ k, l.lower s m table = .ok k := by
  induction f generalizing g with
  | logical k fs ih =>
    obtain ⟨gs, hgs, -⟩ := bind_eq_ok.mp h
    obtain ⟨f, hf, hl⟩ := mem_leaves_logical.mp hl
    rw [lowerAll_eq_mapM] at hgs
    obtain ⟨g, -, hg⟩ := of_mem_mapM hgs hf
    exact ih f hf hg hl
  | not f ih =>
    obtain ⟨g, hg, -⟩ := bind_eq_ok.mp h
    exact ih hg hl
  | _ => exact List.mem_singleton.mp hl ▸ ⟨g, h⟩

/-- No comparison with a computed attribute is left. -/
theorem computed_not_mem_lower (h : f.lower s m table = .ok g) : computed c ∉ g.leaves := by
  intro hc
  obtain ⟨k, hk, h⟩ := mem_leaves_lower h hc
  have hleaf := isLeaf_of_mem hk
  cases k with
  | computed c' =>
    obtain ⟨text, heq, -⟩ := lower_computed_eq_ok h
    cases heq
  | logical | not => exact hleaf.elim
  | _ => cases h

section
variable {α : Type u} [Lattice α] [BoundedOrder α] [Compl α]

/-- A lowered filter has the value of the filter. -/
theorem eval_lower (h : f.lower s m table = .ok g) (v : Valuation α) :
    g.eval v = f.eval (v.written s m table) := by
  induction f generalizing g with
  | comparison c =>
    cases h
    rfl
  | raw sql =>
    cases h
    rfl
  | computed c =>
    obtain ⟨text, rfl, hcondition⟩ := lower_computed_eq_ok h
    simp only [eval, Valuation.written, hcondition]
  | logical k fs ih =>
    obtain ⟨gs, hgs, h⟩ := bind_eq_ok.mp h
    cases h
    rw [lowerAll_eq_mapM] at hgs
    -- Operands that became equal are combined into one, but then their values are equal too.
    rw [eval_combine, eval_logical, map_of_mapM hgs fun f hf g hg => ih f hf hg]
  | not f ih =>
    obtain ⟨g, hg, h⟩ := bind_eq_ok.mp h
    cases h
    rw [eval, eval, ih hg]

end

/-- A filter on `m` and what it was lowered to where the statement calls `m` by the name `table`. -/
structure LoweredTo (s : Schema) (m : Model) (table : String) (f g : Filter) : Prop where
  lower : f.lower s m table = .ok g
  /-- A comparison with a computed attribute became the text that it is written as. -/
  text : ∀ c, computed c ∈ f.leaves → ∃ text, (computed c).lower s m table = .ok (.raw text) ∧
    (computed c).condition s m table = .ok (.atom [.text text])
  leaves : ∀ l ∈ g.leaves, ∃ k ∈ f.leaves, k.lower s m table = .ok l
  computed_not_mem : ∀ c, computed c ∉ g.leaves
  value : ∀ (α : Type) [Lattice α] [BoundedOrder α] [Compl α] (v : Valuation α),
    g.eval v = f.eval (v.written s m table)

theorem loweredTo_of_lower (h : f.lower s m table = .ok g) : f.LoweredTo s m table g where
  lower := h
  text c hc := by
    obtain ⟨k, hk⟩ := lower_of_mem_leaves h hc
    obtain ⟨text, rfl, hcondition⟩ := lower_computed_eq_ok hk
    exact ⟨text, hk, hcondition⟩
  leaves _ := mem_leaves_lower h
  computed_not_mem _ := computed_not_mem_lower h
  value _ _ _ _ := eval_lower h

end Filter

end RelQuery
