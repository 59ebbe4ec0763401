import RelQuery.Proofs.Except
import RelQuery.Rows.Session

/-!
# Runs of a session

A run that succeeds is taken apart into its steps. What it has read is a list of batches, one for
each statement that it has asked, in order.
-/

namespace RelQuery

namespace Exchange

variable {α β : Type} {σ σ' : Session} {a : α} {b : β}

/-- A computation that succeeds takes one state of a session to another. -/
def Runs (x : Exchange α) (σ : Session) (a : α) (σ' : Session) : Prop :=
  (x.run.run σ).run = (.ok a, σ')

theorem runs_pure {a b : α} : Runs (pure b) σ a σ' ↔ b = a ∧ σ = σ' := by
  constructor
  · intro h
    cases h
    exact ⟨rfl, rfl⟩
  · rintro ⟨rfl, rfl⟩
    rfl

theorem runs_bind {x : Exchange α} {f : α → Exchange β} :
    Runs (x >>= f) σ b σ' ↔ ∃ a σ₁, Runs x σ a σ₁ ∧ Runs (f a) σ₁ b σ' := by
  have hrun : ((x >>= f).run.run σ).run = match (x.run.run σ).run with
      | (.ok a, σ₁) => ((f a).run.run σ₁).run
      | (.error e, σ₁) => (.error e, σ₁) := by
    change (match (x.run.run σ).run with
      | (r, σ₁) => (ExceptT.bindCont f r).run σ₁) = _
    split
    rename_i r σ₁ hx
    rw [hx]
    cases r <;> rfl
  unfold Runs
  rw [hrun]
  constructor
  · intro h
    cases hx : (x.run.run σ).run with
    | mk r σ₁ =>
      rw [hx] at h
      cases r with
      | error e => cases h
      | ok a => exact ⟨a, σ₁, rfl, h⟩
  · rintro ⟨a, σ₁, hx, hf⟩
    rw [hx]
    exact hf

theorem runs_ofPlan {x : Except PlanError α} : Runs (ofPlan x) σ a σ' ↔ x = .ok a ∧ σ = σ' := by
  cases x with
  | ok b =>
    rw [ofPlan, runs_pure, Except.ok.injEq]
  | error e =>
    refine iff_of_false (fun h => ?_) nofun
    cases h

end Exchange

/-- What a session answers to the next statement: no row if there is no reply left. -/
def Session.Answers (σ : Session) (batch : List Row) : Prop :=
  (σ.replies = [] ∧ batch = []) ∨ σ.replies.head? = some (.rows batch)

/-- The session after one more statement. -/
def Session.next (σ : Session) (q : Statement) : Session :=
  { σ with replies := σ.replies.tail, asked := σ.asked ++ [q] }

theorem Exchange.answers_of_ask {σ σ' : Session} {q : Statement} {batch : List Row}
    (h : Runs (ask q) σ batch σ') : σ.Answers batch ∧ σ' = σ.next q := by
  obtain ⟨reason, replies, asked⟩ := σ
  cases reason with
  | some reason => cases h
  | none =>
    cases replies with
    | nil =>
      cases h
      exact ⟨.inl ⟨rfl, rfl⟩, rfl⟩
    | cons reply replies =>
      cases reply with
      | rows rows =>
        cases h
        exact ⟨.inr rfl, rfl⟩
      | refused message => cases h

/-- A session answers some statements, one after the other, with these batches. -/
inductive Session.Reads : Session → List (List Row) → Session → Prop
  | nil {σ : Session} : Reads σ [] σ
  | cons {σ σ' : Session} {q : Statement} {batch : List Row} {batches : List (List Row)} :
      σ.Answers batch → Reads (σ.next q) batches σ' → Reads σ (batch :: batches) σ'

theorem Session.Reads.append {σ σ₁ σ' : Session} {batches batches' : List (List Row)}
    (h : Reads σ batches σ₁) (h' : Reads σ₁ batches' σ') : Reads σ (batches ++ batches') σ' := by
  induction h with
  | nil => exact h'
  | cons ha _ ih => exact .cons ha (ih h')

end RelQuery
