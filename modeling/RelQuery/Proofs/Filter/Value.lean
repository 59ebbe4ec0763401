import Mathlib.Data.List.Forall2
import Mathlib.Order.BooleanAlgebra.Basic
import RelQuery.Filter.Merge

/-!
# The value of a filter

The truth value of a filter under an assignment of truth values to its leaves, in any bounded
lattice with a negation: `Bool` for two-valued logic, `Kleene` for the logic of SQL.
`Filter.combine` flattens, drops copies and collapses, but `eval_combine` shows that the value of
the result is that of the operands.
-/

namespace RelQuery

universe u

/-- The truth values of SQL, from false over unknown to true. -/
inductive Kleene
  | false
  | unknown
  | true
  deriving DecidableEq

namespace Kleene

def rank : Kleene → Nat
  | .false => 0
  | .unknown => 1
  | .true => 2

theorem rank_injective : Function.Injective rank := by
  intro a b h
  cases a <;> cases b <;> simp_all [rank]

instance : LinearOrder Kleene := LinearOrder.lift' rank rank_injective

instance : BoundedOrder Kleene where
  top := .true
  le_top a := by cases a <;> decide
  bot := .false
  bot_le a := by cases a <;> decide

instance : Compl Kleene where
  compl
    | .false => .true
    | .unknown => .unknown
    | .true => .false

example : Kleene.unknown ⊓ .false = .false ∧ Kleene.unknown ⊔ .true = .true ∧
    Kleene.unknownᶜ = .unknown := by decide

end Kleene

/-- Truth values for the leaves of filters. Equal leaves have one value. -/
structure Valuation (α : Type u) where
  comparison : Comparison → α
  computed : ComputedComparison → α
  raw : String → α
  comparison_congr : ∀ {a b : Comparison}, (a == b) = true → comparison a = comparison b

/-! ## Connectives as operations -/

namespace Connective

section
variable {α : Type u} [Lattice α] {k : Connective}

def apply : Connective → α → α → α
  | .and => (· ⊓ ·)
  | .or => (· ⊔ ·)

theorem apply_assoc (a b c : α) : k.apply (k.apply a b) c = k.apply a (k.apply b c) := by
  cases k
  · exact inf_assoc a b c
  · exact sup_assoc a b c

theorem apply_comm (a b : α) : k.apply a b = k.apply b a := by
  cases k
  · exact inf_comm a b
  · exact sup_comm a b

@[simp] theorem apply_self (a : α) : k.apply a a = a := by
  cases k
  · exact inf_idem a
  · exact sup_idem a

end

variable {α : Type u} [Lattice α] [BoundedOrder α] {k : Connective}

/-- The value of a connective without operands. -/
def unit : Connective → α
  | .and => ⊤
  | .or => ⊥

/-- The value of a connective over a list of operands. -/
def fold (k : Connective) (xs : List α) : α := xs.foldr k.apply k.unit

@[simp] theorem unit_apply (a : α) : k.apply k.unit a = a := by
  cases k
  · exact top_inf_eq a
  · exact bot_sup_eq a

@[simp] theorem apply_unit (a : α) : k.apply a k.unit = a := by rw [apply_comm, unit_apply]

@[simp] theorem fold_nil : k.fold ([] : List α) = k.unit := rfl

@[simp] theorem fold_cons (a : α) (xs : List α) : k.fold (a :: xs) = k.apply a (k.fold xs) := rfl

@[simp] theorem fold_append (xs ys : List α) :
    k.fold (xs ++ ys) = k.apply (k.fold xs) (k.fold ys) := by
  induction xs with
  | nil => simp
  | cons a xs ih => simp [ih, apply_assoc]

/-- An operand that is there already adds nothing. -/
theorem fold_apply_of_mem {xs : List α} {a : α} (h : a ∈ xs) :
    k.apply (k.fold xs) a = k.fold xs := by
  induction xs with
  | nil => cases h
  | cons b xs ih =>
    rw [fold_cons, apply_assoc]
    rcases List.mem_cons.mp h with rfl | h
    · rw [apply_comm (k.fold xs), ← apply_assoc, apply_self]
    · rw [ih h]

theorem le_fold_and {x : α} {xs : List α} : x ≤ Connective.and.fold xs ↔ ∀ a ∈ xs, x ≤ a := by
  induction xs with
  | nil => simp [unit]
  | cons a xs ih => simp [apply, ih]

theorem fold_and_le {xs : List α} {a : α} (h : a ∈ xs) : Connective.and.fold xs ≤ a :=
  le_fold_and.mp le_rfl a h

end Connective

/-! ## The value -/

namespace Filter

variable {α : Type u} [Lattice α] [BoundedOrder α] [Compl α] {k : Connective} (v : Valuation α)

mutual

def eval : Filter → α
  | .comparison c => v.comparison c
  | .computed c => v.computed c
  | .raw sql => v.raw sql
  | .logical k fs => k.fold (evalAll fs)
  | .not f => (eval f)ᶜ

def evalAll : List Filter → List α
  | [] => []
  | f :: fs => eval f :: evalAll fs

end

/-- The value of a filter that may be missing; no filter is true. -/
def evalOption : Option Filter → α
  | some f => f.eval v
  | none => ⊤

variable {v} {f g : Filter} {fs gs : List Filter}

@[simp] theorem evalAll_eq_map : evalAll v fs = fs.map (eval v) := by
  induction fs with
  | nil => rfl
  | cons f fs ih => simp [evalAll, ih]

@[simp] theorem eval_logical : eval v (.logical k fs) = k.fold (fs.map (eval v)) := by
  simp [eval]

/-! ## Equal filters -/

theorem forall₂_of_sameAll {R : Filter → Filter → Prop}
    (H : ∀ f ∈ fs, ∀ {g}, same f g = true → R f g) (h : sameAll fs gs = true) :
    List.Forall₂ R fs gs := by
  induction fs generalizing gs with
  | nil =>
    cases gs with
    | nil => exact .nil
    | cons => cases h
  | cons f fs ih =>
    cases gs with
    | nil => cases h
    | cons g gs =>
      simp only [sameAll, Bool.and_eq_true] at h
      exact .cons (H f List.mem_cons_self h.1)
        (ih (fun f hf => H f (List.mem_cons_of_mem _ hf)) h.2)

theorem map_eq_of_forall₂ {β : Type u} {F : Filter → β}
    (h : List.Forall₂ (fun f g => F f = F g) fs gs) : fs.map F = gs.map F := by
  induction h with
  | nil => rfl
  | cons h _ ih => rw [List.map_cons, List.map_cons, h, ih]

/-- Equal filters have one value. -/
theorem eval_congr (h : same f g = true) : eval v f = eval v g := by
  induction f generalizing g with
  | comparison a =>
    cases g with
    | comparison b => exact v.comparison_congr h
    | _ => cases h
  | computed a =>
    cases g <;> simp [same] at h
    rw [h]
  | raw a =>
    cases g <;> simp [same] at h
    rw [h]
  | logical k fs ih =>
    cases g <;> simp only [same, Bool.and_eq_true, beq_iff_eq, Bool.false_eq_true] at h
    rw [eval_logical, eval_logical, h.1, map_eq_of_forall₂ (forall₂_of_sameAll ih h.2)]
  | not f ih =>
    cases g <;> simp only [same, Bool.false_eq_true] at h
    rw [eval, eval, ih h]

theorem mem_eval_of_contains (h : fs.contains f = true) : eval v f ∈ fs.map (eval v) := by
  obtain ⟨g, hg, hfg⟩ := List.contains_iff_exists_mem_beq.mp h
  exact List.mem_map.mpr ⟨g, hg, (eval_congr hfg).symm⟩

/-! ## Combinations -/

/-- Filters added unless they are among those before count as all of them. -/
theorem fold_eval_append : k.fold ((append fs gs).map (eval v)) =
    k.apply (k.fold (fs.map (eval v))) (k.fold (gs.map (eval v))) := by
  unfold append
  induction gs generalizing fs with
  | nil => simp
  | cons g gs ih =>
    rw [List.foldl_cons, ih, List.map_cons, Connective.fold_cons, ← Connective.apply_assoc]
    congr 1
    split
    · rename_i h
      exact (Connective.fold_apply_of_mem (mem_eval_of_contains h)).symm
    · simp

@[simp] theorem fold_eval_distinct :
    k.fold ((distinct fs).map (eval v)) = k.fold (fs.map (eval v)) := by
  have h : distinct fs = append [] fs := rfl
  rw [h, fold_eval_append]
  simp

@[simp] theorem fold_eval_parts : k.fold ((parts k f).map (eval v)) = eval v f := by
  unfold parts
  split
  · split
    · rename_i h
      rw [eval_logical, h]
    · simp
  · simp

theorem fold_eval_flatMap_parts :
    k.fold ((fs.flatMap (parts k)).map (eval v)) = k.fold (fs.map (eval v)) := by
  induction fs with
  | nil => rfl
  | cons f fs ih => simp [ih]

/-- A combination has the value of its connective over the operands. -/
@[simp] theorem eval_combine : eval v (combine k fs) = k.fold (fs.map (eval v)) := by
  rw [← fold_eval_flatMap_parts, ← fold_eval_distinct]
  unfold combine
  split
  · rename_i f h
    simp [h]
  · simp

@[simp] theorem eval_all : eval v (all fs) = Connective.and.fold (fs.map (eval v)) := eval_combine

@[simp] theorem eval_any : eval v (any fs) = Connective.or.fold (fs.map (eval v)) := eval_combine

@[simp] theorem fold_eval_conjuncts :
    Connective.and.fold (f.conjuncts.map (eval v)) = eval v f := fold_eval_parts

theorem eval_of_isAlways (h : f.isAlways = true) : eval v f = ⊤ := by
  unfold isAlways at h
  split at h
  · rfl
  · cases h

@[simp] theorem evalOption_proper? : evalOption v f.proper? = eval v f := by
  unfold proper?
  split
  · rename_i h
    exact (eval_of_isAlways h).symm
  · rfl

end Filter

end RelQuery
