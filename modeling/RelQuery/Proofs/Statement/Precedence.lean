import RelQuery.Proofs.Filter.Value
import RelQuery.Statement.Condition

/-!
# Conditions read by precedence

A condition is a sequence of words: conditions that are not taken apart, `TRUE` and `FALSE`, `NOT`,
`AND` and `OR`, and parentheses. `Reading` is the grammar of SQL, in which NOT binds more closely
than AND and AND more closely than OR, with the value of what is read. The grammar is not ambiguous:
a machine with a stack of open parentheses goes along the words and finds the value of each reading.
-/

namespace RelQuery.Condition

universe u

inductive Word
  | atom (sql : Sql)
  | true
  | false
  | not
  | and
  | or
  | opening
  | closing

/-- The text of a word in SQL. -/
def Word.sql : Word → Sql
  | .atom ps => ps
  | .true => [.text "TRUE"]
  | .false => [.text "FALSE"]
  | .not => [.text "NOT "]
  | .and => [.text " AND "]
  | .or => [.text " OR "]
  | .opening => [.text "("]
  | .closing => [.text ")"]

/-- The condition of a word that is not taken apart. -/
def Word.atom? : Word → Option Sql
  | .atom ps => some ps
  | _ => none

def spell (ws : List Word) : Sql := ws.flatMap (·.sql)

def atomsOf (ws : List Word) : List Sql := ws.filterMap (·.atom?)

/-- What may stand at a place: a factor between ANDs, a term between ORs, or all of a condition. -/
inductive Level
  | factor
  | term
  | condition

section
variable {α : Type u} [Lattice α] [BoundedOrder α] [Compl α]

/-- The words are read as a condition with a value. -/
inductive Reading (v : Sql → α) : Level → List Word → α → Prop
  | atom {ps : Sql} : Reading v .factor [.atom ps] (v ps)
  | true : Reading v .factor [.true] ⊤
  | false : Reading v .factor [.false] ⊥
  | not {ws : List Word} {x : α} : Reading v .factor ws x → Reading v .factor (.not :: ws) xᶜ
  | parenthesized {ws : List Word} {x : α} : Reading v .condition ws x →
      Reading v .factor (.opening :: ws ++ [.closing]) x
  | factor {ws : List Word} {x : α} : Reading v .factor ws x → Reading v .term ws x
  | and {ws us : List Word} {x y : α} : Reading v .term ws x → Reading v .factor us y →
      Reading v .term (ws ++ .and :: us) (x ⊓ y)
  | term {ws : List Word} {x : α} : Reading v .term ws x → Reading v .condition ws x
  | or {ws us : List Word} {x y : α} : Reading v .condition ws x → Reading v .term us y →
      Reading v .condition (ws ++ .or :: us) (x ⊔ y)

end

/-! ## A machine -/

/-- What was read inside a parenthesis that is still open: the terms before the current one, the
factors of the current one, and how often the next factor is negated. -/
structure Frame (α : Type u) where
  terms : α
  factors : α
  nots : Nat

namespace Frame

variable {α : Type u} [Lattice α]

def value (fr : Frame α) : α := fr.terms ⊔ fr.factors

variable [Compl α]

def operand (fr : Frame α) (x : α) : Frame α :=
  { fr with factors := fr.factors ⊓ compl^[fr.nots] x, nots := 0 }

theorem operand_not (fr : Frame α) (x : α) :
    { fr with nots := fr.nots + 1 }.operand x = fr.operand xᶜ := by
  simp [operand, Function.iterate_succ_apply]

theorem operand_operand {fr : Frame α} (h : fr.nots = 0) (x y : α) :
    (fr.operand x).operand y = fr.operand (x ⊓ y) := by
  simp [operand, h, inf_assoc]

end Frame

section
variable {α : Type u} [Lattice α] [BoundedOrder α] [Compl α]

def step (v : Sql → α) : List (Frame α) → Word → List (Frame α)
  | fr :: frs, .atom ps => fr.operand (v ps) :: frs
  | fr :: frs, .true => fr.operand ⊤ :: frs
  | fr :: frs, .false => fr.operand ⊥ :: frs
  | fr :: frs, .not => { fr with nots := fr.nots + 1 } :: frs
  | fr :: frs, .or => { fr with terms := fr.value, factors := ⊤ } :: frs
  | frs, .opening => ⟨⊥, ⊤, 0⟩ :: frs
  | inner :: fr :: frs, .closing => fr.operand inner.value :: frs
  | frs, _ => frs

def run (v : Sql → α) (ws : List Word) (frs : List (Frame α)) : List (Frame α) :=
  ws.foldl (step v) frs

/-- What the machine does with words that have a value: it takes a factor or a term as an operand,
and a condition as the terms of an open parenthesis. -/
def Runs (v : Sql → α) (ws : List Word) (x : α) : Level → Prop
  | .factor => ∀ fr frs, run v ws (fr :: frs) = fr.operand x :: frs
  | .term => ∀ fr frs, fr.nots = 0 → run v ws (fr :: frs) = fr.operand x :: frs
  | .condition => ∀ terms frs, ∃ fr, run v ws (⟨terms, ⊤, 0⟩ :: frs) = fr :: frs ∧
      fr.nots = 0 ∧ fr.value = terms ⊔ x

variable {v : Sql → α} {level : Level} {ws us : List Word} {x y : α}

theorem run_append {frs : List (Frame α)} : run v (ws ++ us) frs = run v us (run v ws frs) :=
  List.foldl_append

theorem run_cons {w : Word} {frs : List (Frame α)} :
    run v (w :: ws) frs = run v ws (step v frs w) := rfl

theorem Reading.runs (h : Reading v level ws x) : Runs v ws x level := by
  induction h with
  | atom => exact fun _ _ => rfl
  | true => exact fun _ _ => rfl
  | false => exact fun _ _ => rfl
  | not _ ih =>
    intro fr frs
    rw [run_cons, ← fr.operand_not]
    exact ih _ frs
  | parenthesized _ ih =>
    intro fr frs
    obtain ⟨inner, hrun, -, hvalue⟩ := ih ⊥ (fr :: frs)
    rw [List.cons_append, run_cons, run_append, step, hrun]
    change fr.operand inner.value :: frs = _
    rw [hvalue, bot_sup_eq]
  | factor _ ih => exact fun fr frs _ => ih fr frs
  | and _ _ ih ih' =>
    intro fr frs hn
    rw [run_append, ih fr frs hn, run_cons, ← Frame.operand_operand hn]
    exact ih' _ frs
  | term _ ih =>
    intro terms frs
    refine ⟨_, ih _ frs rfl, rfl, ?_⟩
    simp [Frame.operand, Frame.value]
  | or _ _ ih ih' =>
    intro terms frs
    obtain ⟨fr, hrun, hn, hvalue⟩ := ih terms frs
    rw [run_append, hrun, run_cons]
    refine ⟨_, ih' _ frs hn, rfl, ?_⟩
    simp [Frame.operand, Frame.value, hn, ← sup_assoc, ← hvalue]

/-- A condition has no more than one value. -/
theorem Reading.unique (h : Reading v .condition ws x) (h' : Reading v .condition ws y) :
    x = y := by
  obtain ⟨fr, hrun, -, hvalue⟩ := h.runs ⊥ []
  obtain ⟨fr', hrun', -, hvalue'⟩ := h'.runs ⊥ []
  cases hrun.symm.trans hrun'
  rw [← bot_sup_eq x, ← hvalue, hvalue', bot_sup_eq]

end

/-! ## Chains of operands -/

/-- The word between the operands of a connective. -/
def wordOf : Connective → Word
  | .and => .and
  | .or => .or

/-- The word for a connective without operands. -/
def neutralWord : Connective → Word
  | .and => .true
  | .or => .false

/-- The level of a chain of a connective. -/
def chainLevel : Connective → Level
  | .and => .term
  | .or => .condition

section
variable {α : Type u} [Lattice α] [BoundedOrder α] [Compl α] {v : Sql → α} {ws us : List Word}
  {x y : α} {k : Connective}

theorem Reading.neutral : Reading v .factor [neutralWord k] k.unit := by
  cases k with
  | and => exact .true
  | or => exact .false

theorem Reading.ofChain (h : Reading v (chainLevel k) ws x) : Reading v .condition ws x := by
  cases k with
  | and => exact .term h
  | or => exact h

theorem Reading.toChain (h : Reading v .factor ws x) : Reading v (chainLevel k) ws x := by
  cases k with
  | and => exact .factor h
  | or => exact .term (.factor h)

theorem Reading.connect (h : Reading v (chainLevel k) ws x) (h' : Reading v .factor us y) :
    Reading v (chainLevel k) (ws ++ wordOf k :: us) (k.apply x y) := by
  cases k with
  | and => exact .and h h'
  | or => exact .or h (.factor h')

/-- A chain of factors has the value of its connective over them. -/
theorem Reading.chain {wss : List (List Word)} {xs : List α}
    (h : Reading v (chainLevel k) ws x) (hs : List.Forall₂ (Reading v .factor) wss xs) :
    Reading v (chainLevel k) (ws ++ wss.flatMap (wordOf k :: ·)) (k.apply x (k.fold xs)) := by
  induction hs generalizing ws x with
  | nil => simpa using h
  | @cons us y wss xs hy _ ih =>
    have hstep := ih (h.connect hy)
    rwa [List.append_assoc, List.cons_append, Connective.apply_assoc] at hstep

end

end RelQuery.Condition
