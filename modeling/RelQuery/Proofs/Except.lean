import Mathlib.Data.List.Forall2

/-!
# Steps that succeed

A sequence of steps that may fail succeeds exactly if every step does. The lemmas take a successful
run apart into its steps, carry an invariant along a fold, and compare two runs.
-/

namespace RelQuery

universe u

variable {ε α β : Type} {b : β}

@[simp] theorem ok_bind {a : α} {f : α → Except ε β} : (Except.ok a >>= f) = f a := rfl

@[simp] theorem error_bind {e : ε} {f : α → Except ε β} : (Except.error e >>= f) = .error e := rfl

@[simp] theorem map_ok {a : α} {f : α → β} : (f <$> (Except.ok a : Except ε α)) = .ok (f a) := rfl

@[simp] theorem pure_eq_ok {b' : β} : (pure b : Except ε β) = .ok b' ↔ b = b' :=
  ⟨fun h => Except.ok.inj h, fun h => h ▸ rfl⟩

theorem bind_eq_ok {x : Except ε α} {f : α → Except ε β} :
    (x >>= f) = .ok b ↔ ∃ a, x = .ok a ∧ f a = .ok b := by
  cases x with
  | error e => simp
  | ok a => simp

theorem map_eq_ok {x : Except ε α} {f : α → β} :
    (f <$> x) = .ok b ↔ ∃ a, x = .ok a ∧ f a = b := by
  cases x with
  | error e => simp [Functor.map, Except.map]
  | ok a => simp

section
variable {R : α → β → Prop} {a? : Option α} {b? : Option β} (h : Option.Rel R a? b?)
include h

theorem rel_imp {S : α → β → Prop} (H : ∀ a b, R a b → S a b) : Option.Rel S a? b? := by
  cases h with
  | none => exact .none
  | some h => exact .some (H _ _ h)

theorem exists_left_of_rel (hb : b? = some b) : ∃ a, a? = some a ∧ R a b := by
  subst hb
  cases h with
  | some h => exact ⟨_, rfl, h⟩

theorem exists_right_of_rel {a : α} (ha : a? = some a) : ∃ b, b? = some b ∧ R a b := by
  subst ha
  cases h with
  | some h => exact ⟨_, rfl, h⟩

end

/-- What every successful step keeps, a successful fold keeps. -/
theorem foldlM_preserves {P : β → Prop} {step : β → α → Except ε β} {as : List α}
    (H : ∀ b, ∀ a ∈ as, ∀ b', P b → step b a = .ok b' → P b') {b' : β} (hb : P b)
    (h : as.foldlM step b = .ok b') : P b' := by
  induction as generalizing b with
  | nil => exact pure_eq_ok.mp h ▸ hb
  | cons a as ih =>
    obtain ⟨b₁, h₁, h⟩ := bind_eq_ok.mp h
    have hb₁ : P b₁ := H b a List.mem_cons_self b₁ hb h₁
    exact ih (fun b a ha => H b a (List.mem_cons_of_mem _ ha)) hb₁ h

/-- A fold succeeds if every step does from where the steps before it can lead. -/
theorem exists_foldlM {P : β → Prop} {step : β → α → Except ε β} {as : List α}
    (H : ∀ b, P b → ∀ a ∈ as, ∃ b', step b a = .ok b' ∧ P b') (hb : P b) :
    ∃ b', as.foldlM step b = .ok b' ∧ P b' := by
  induction as generalizing b with
  | nil => exact ⟨b, rfl, hb⟩
  | cons a as ih =>
    obtain ⟨b₁, h₁, hb₁⟩ := H b hb a List.mem_cons_self
    obtain ⟨b', h, hb'⟩ := ih (fun b hb a ha => H b hb a (List.mem_cons_of_mem _ ha)) hb₁
    exact ⟨b', by rw [List.foldlM_cons, h₁, ok_bind, h], hb'⟩

/-! ## Lists -/

variable {f : α → Except ε β} {as : List α} {bs : List β}

theorem mapM_cons_eq_ok {a : α} : (a :: as).mapM f = .ok bs ↔
    ∃ b bs', f a = .ok b ∧ as.mapM f = .ok bs' ∧ bs = b :: bs' := by
  simp only [List.mapM_cons, bind_eq_ok, pure_eq_ok, eq_comm (a := bs)]
  constructor
  · rintro ⟨b, hb, bs', hbs, h⟩
    exact ⟨b, bs', hb, hbs, h⟩
  · rintro ⟨b, bs', hb, hbs, h⟩
    exact ⟨b, hb, bs', hbs, h⟩

theorem length_of_mapM (h : as.mapM f = .ok bs) : bs.length = as.length := by
  induction as generalizing bs with
  | nil => exact pure_eq_ok.mp h ▸ rfl
  | cons a as ih =>
    obtain ⟨b, bs, -, hbs, rfl⟩ := mapM_cons_eq_ok.mp h
    rw [List.length_cons, List.length_cons, ih hbs]

theorem forall₂_of_mapM (h : as.mapM f = .ok bs) : List.Forall₂ (fun a b => f a = .ok b) as bs := by
  induction as generalizing bs with
  | nil => exact pure_eq_ok.mp h ▸ .nil
  | cons a as ih =>
    obtain ⟨b, bs, hb, hbs, rfl⟩ := mapM_cons_eq_ok.mp h
    exact .cons hb (ih hbs)

theorem exists_of_forall₂ {R : α → β → Prop} (h : List.Forall₂ R as bs) (hb : b ∈ bs) :
    ∃ a ∈ as, R a b := by
  induction h with
  | nil => cases hb
  | cons hab _ ih =>
    rcases List.mem_cons.mp hb with rfl | hb
    · exact ⟨_, List.mem_cons_self, hab⟩
    · obtain ⟨a, ha, hab⟩ := ih hb
      exact ⟨a, List.mem_cons_of_mem _ ha, hab⟩

theorem mem_of_mapM (h : as.mapM f = .ok bs) (hb : b ∈ bs) : ∃ a ∈ as, f a = .ok b := by
  obtain ⟨a, ha, hab⟩ := exists_of_forall₂ (forall₂_of_mapM h) hb
  exact ⟨a, ha, hab⟩

theorem of_mem_mapM {a : α} (h : as.mapM f = .ok bs) (ha : a ∈ as) : ∃ b ∈ bs, f a = .ok b := by
  induction as generalizing bs with
  | nil => cases ha
  | cons a' as ih =>
    obtain ⟨b, bs, hb, hbs, rfl⟩ := mapM_cons_eq_ok.mp h
    rcases List.mem_cons.mp ha with rfl | ha
    · exact ⟨b, List.mem_cons_self, hb⟩
    · obtain ⟨b', hb', h'⟩ := ih hbs ha
      exact ⟨b', List.mem_cons_of_mem _ hb', h'⟩

theorem rel_getElem?_of_mapM (h : as.mapM f = .ok bs) (i : Nat) :
    Option.Rel (fun a b => f a = .ok b) as[i]? bs[i]? := by
  induction as generalizing bs i with
  | nil =>
    cases pure_eq_ok.mp h
    exact .none
  | cons a as ih =>
    obtain ⟨b, bs, hb, hbs, rfl⟩ := mapM_cons_eq_ok.mp h
    cases i with
    | zero => exact .some hb
    | succ i => exact ih hbs i

/-- A property of the results that is known from what they come from. -/
theorem map_of_mapM {γ : Type u} {F : α → γ} {G : β → γ} (h : as.mapM f = .ok bs)
    (H : ∀ a ∈ as, ∀ b, f a = .ok b → G b = F a) : bs.map G = as.map F := by
  induction as generalizing bs with
  | nil => exact pure_eq_ok.mp h ▸ rfl
  | cons a as ih =>
    obtain ⟨b, bs, hb, hbs, rfl⟩ := mapM_cons_eq_ok.mp h
    rw [List.forall_mem_cons] at H
    rw [List.map_cons, List.map_cons, H.1 b hb, ih hbs H.2]

theorem exists_mapM (H : ∀ a ∈ as, ∃ b, f a = .ok b) : ∃ bs, as.mapM f = .ok bs := by
  induction as with
  | nil => exact ⟨[], rfl⟩
  | cons a as ih =>
    obtain ⟨b, hb⟩ := H a List.mem_cons_self
    obtain ⟨bs, hbs⟩ := ih fun a ha => H a (List.mem_cons_of_mem _ ha)
    exact ⟨b :: bs, mapM_cons_eq_ok.mpr ⟨b, bs, hb, hbs, rfl⟩⟩

theorem mapM_congr {g : α → Except ε β} (h : ∀ a ∈ as, f a = g a) : as.mapM f = as.mapM g := by
  induction as with
  | nil => rfl
  | cons a as ih =>
    rw [List.forall_mem_cons] at h
    rw [List.mapM_cons, List.mapM_cons, h.1, ih h.2]

theorem mapM_of_eq_ok {g : α → β} (h : ∀ a ∈ as, f a = .ok (g a)) :
    as.mapM f = .ok (as.map g) := by
  induction as with
  | nil => rfl
  | cons a as ih =>
    rw [List.forall_mem_cons] at h
    exact mapM_cons_eq_ok.mpr ⟨g a, as.map g, h.1, ih h.2, rfl⟩

theorem mapM_of_eq_ok_self {f : α → Except ε α} (h : ∀ a ∈ as, f a = .ok a) :
    as.mapM f = .ok as := by
  rw [mapM_of_eq_ok (g := id) h, List.map_id]

theorem mapM_append_eq_ok {as' : List α} : (as ++ as').mapM f = .ok bs ↔
    ∃ l r, as.mapM f = .ok l ∧ as'.mapM f = .ok r ∧ bs = l ++ r := by
  simp only [List.mapM_append, bind_eq_ok, pure_eq_ok]
  constructor
  · rintro ⟨l, hl, r, hr, rfl⟩
    exact ⟨l, r, hl, hr, rfl⟩
  · rintro ⟨l, r, hl, hr, rfl⟩
    exact ⟨l, hl, r, hr, rfl⟩

/-- Two passes over a list are one pass. -/
theorem mapM_mapM {γ : Type} {g : β → Except ε γ} {cs : List γ} (hf : as.mapM f = .ok bs)
    (hg : bs.mapM g = .ok cs) : as.mapM (fun a => f a >>= g) = .ok cs := by
  induction as generalizing bs cs with
  | nil =>
    cases pure_eq_ok.mp hf
    exact hg
  | cons a as ih =>
    obtain ⟨b, bs, hb, hbs, rfl⟩ := mapM_cons_eq_ok.mp hf
    obtain ⟨c, cs, hc, hcs, rfl⟩ := mapM_cons_eq_ok.mp hg
    exact mapM_cons_eq_ok.mpr ⟨c, cs, by rw [hb, ok_bind, hc], ih hbs hcs, rfl⟩

theorem of_forM {f : α → Except ε Unit} {u : Unit} (h : as.forM f = .ok u) :
    ∀ a ∈ as, f a = .ok () := by
  induction as with
  | nil => nofun
  | cons a as ih =>
    obtain ⟨_, ha, h⟩ := bind_eq_ok.mp h
    exact List.forall_mem_cons.mpr ⟨ha, ih h⟩

theorem forM_of_eq_ok {f : α → Except ε Unit} (h : ∀ a ∈ as, f a = .ok ()) :
    as.forM f = .ok () := by
  induction as with
  | nil => rfl
  | cons a as ih =>
    rw [List.forall_mem_cons] at h
    exact bind_eq_ok.mpr ⟨(), h.1, ih h.2⟩

/-! ## Two runs -/

/-- Folds whose steps agree on related elements agree. -/
theorem foldlM_congr₂ {γ : Type} {R : α → γ → Prop} {cs : List γ} {step : β → α → Except ε β}
    {step' : β → γ → Except ε β} (h : List.Forall₂ R as cs)
    (H : ∀ b a c, R a c → step b a = step' b c) : as.foldlM step b = cs.foldlM step' b := by
  induction h generalizing b with
  | nil => rfl
  | cons hac _ ih =>
    rw [List.foldlM_cons, List.foldlM_cons, H b _ _ hac]
    exact congrArg _ (funext fun b => ih)

/-- Both runs fail, or their results are related. -/
inductive Agree {γ : Type} (R : α → γ → Prop) : Except ε α → Except ε γ → Prop
  | error {e e' : ε} : Agree R (.error e) (.error e')
  | ok {a : α} {c : γ} : R a c → Agree R (.ok a) (.ok c)

namespace Agree

variable {γ δ : Type} {R : α → γ → Prop} {S : β → δ → Prop} {x : Except ε α} {y : Except ε γ}
  {g : γ → Except ε δ}

theorem bind {f : α → Except ε β} (h : Agree R x y) (H : ∀ a c, R a c → Agree S (f a) (g c)) :
    Agree S (x >>= f) (y >>= g) := by
  cases h with
  | error => exact .error
  | ok h => exact H _ _ h

/-- A first step that is the same in both runs. -/
theorem bind_same {f : α → Except ε β} {g : α → Except ε δ} (H : ∀ a, Agree S (f a) (g a)) :
    Agree S (x >>= f) (x >>= g) := by
  cases x with
  | error e => exact .error
  | ok a => exact H a

theorem trans {θ : Type} {T : γ → θ → Prop} {U : α → θ → Prop} {z : Except ε θ} (h : Agree R x y)
    (h' : Agree T y z) (H : ∀ a c b, R a c → T c b → U a b) : Agree U x z := by
  cases h with
  | error =>
    cases h'
    exact .error
  | ok h =>
    cases h' with
    | ok h' => exact .ok (H _ _ _ h h')

theorem rel {a : α} {c : γ} (h : Agree R (.ok a : Except ε α) (.ok c)) : R a c := by
  cases h with
  | ok h => exact h

theorem symm (h : Agree R x y) : Agree (fun c a => R a c) y x := by
  cases h with
  | error => exact .error
  | ok h => exact .ok h

end Agree

end RelQuery
