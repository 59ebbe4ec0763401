import Mathlib.Data.List.Infix

/-!
# Wildcards

How `LIKE` matches a text: `%` stands for any text, `_` for any character, a backslash for the
character after it, and every other character for itself. A search text with `%` before or after it
finds exactly the texts that hold it there if it has none of these three. Otherwise the shortest
text that the pattern matches, wildcards dropped and escapes undone, is no longer than the search
text and differs from it.
-/

namespace RelQuery.Text

/-- The characters that do not stand for themselves. -/
def special : List Char := ['%', '_', '\\']

/-- A pattern matches a text. A backslash at the end escapes nothing, and matches nothing. -/
inductive Like : List Char → List Char → Prop
  | nil : Like [] []
  | any {p t : List Char} (u : List Char) : Like p t → Like ('%' :: p) (u ++ t)
  | one {p t : List Char} (c : Char) : Like p t → Like ('_' :: p) (c :: t)
  | escaped {p t : List Char} {c : Char} : Like p t → Like ('\\' :: c :: p) (c :: t)
  | self {p t : List Char} {c : Char} : c ∉ special → Like p t → Like (c :: p) (c :: t)

/-- A wildcard for any text, where one is wanted. -/
def wild (wanted : Bool) : List Char := if wanted then ['%'] else []

/-- A text holds the search text, at its start or at its end where nothing may stand before or after
it. -/
def Finds (before after : Bool) (s t : List Char) : Prop :=
  ∃ u v, t = u ++ (s ++ v) ∧ (before = false → u = []) ∧ (after = false → v = [])

variable {p s t u v : List Char} {c : Char} {before after wanted : Bool}

/-! ## What a pattern matches -/

theorem like_nil_iff : Like [] t ↔ t = [] := by
  constructor
  · rintro ⟨⟩
    rfl
  · rintro rfl
    exact .nil

theorem like_any_iff : Like ('%' :: p) t ↔ ∃ u v, t = u ++ v ∧ Like p v := by
  constructor
  · intro h
    cases h with
    | any u h => exact ⟨u, _, rfl, h⟩
    | self hc _ => exact (hc (by decide)).elim
  · rintro ⟨u, v, rfl, h⟩
    exact .any u h

theorem like_self_iff (hc : c ∉ special) : Like (c :: p) t ↔ ∃ v, t = c :: v ∧ Like p v := by
  constructor
  · intro h
    cases h with
    | any u _ => exact (hc (by decide)).elim
    | one d _ => exact (hc (by decide)).elim
    | escaped _ => exact (hc (by decide)).elim
    | self _ h => exact ⟨_, rfl, h⟩
  · rintro ⟨v, rfl, h⟩
    exact .self hc h

theorem like_wild_append :
    Like (wild wanted ++ p) t ↔ ∃ u v, t = u ++ v ∧ (wanted = false → u = []) ∧ Like p v := by
  cases wanted with
  | true => simp [wild, like_any_iff]
  | false => simp [wild]

theorem like_wild : Like (wild wanted) t ↔ (wanted = false → t = []) := by
  have h : Like (wild wanted ++ []) t ↔ _ := like_wild_append
  simpa [like_nil_iff] using h

/-- A text without special characters matches itself. -/
theorem like_append (hs : ∀ c ∈ s, c ∉ special) :
    Like (s ++ p) t ↔ ∃ v, t = s ++ v ∧ Like p v := by
  induction s generalizing t with
  | nil => simp
  | cons c s ih =>
    rw [List.forall_mem_cons] at hs
    simp only [List.cons_append, like_self_iff hs.1, ih hs.2]
    constructor
    · rintro ⟨_, rfl, v, rfl, h⟩
      exact ⟨v, rfl, h⟩
    · rintro ⟨v, rfl, h⟩
      exact ⟨_, rfl, v, rfl, h⟩

/-- Wildcards match themselves too. -/
theorem Like.append (hs : '\\' ∉ s) (h : Like p v) : Like (s ++ p) (s ++ v) := by
  induction s with
  | nil => exact h
  | cons c s ih =>
    obtain ⟨hc, hs⟩ := not_or.mp (List.mem_cons.not.mp hs)
    have ih := ih hs
    by_cases hany : c = '%'
    · subst hany
      exact .any ['%'] ih
    · by_cases hone : c = '_'
      · subst hone
        exact .one '_' ih
      · exact .self (by simp [special, hany, hone, Ne.symm hc]) ih

/-! ## The shortest match -/

/-- A text that the pattern matches, if it matches any: without what `%` stands for, and with a
letter for `_`. -/
def shortest : List Char → List Char
  | [] => []
  | ['\\'] => []
  | '\\' :: c :: p => c :: shortest p
  | '%' :: p => shortest p
  | '_' :: p => 'a' :: shortest p
  | c :: p => c :: shortest p

theorem shortest_self (hc : c ∉ special) : shortest (c :: p) = c :: shortest p := by
  simp only [special, List.mem_cons, List.not_mem_nil, or_false, not_or] at hc
  rw [shortest] <;> simp_all

theorem like_shortest (h : Like p t) : Like p (shortest p) := by
  induction h with
  | nil => exact .nil
  | any _ _ ih => exact .any [] ih
  | one _ _ ih => exact .one 'a' ih
  | escaped _ ih => exact .escaped ih
  | self hc _ ih =>
    rw [shortest_self hc]
    exact .self hc ih

theorem shortest_wild_append : shortest (wild wanted ++ p) = shortest p := by
  cases wanted <;> rfl

/-- The character that a step of `shortest` takes as it is. -/
theorem notMem_special {c : Char} {p : List Char} (hback : c = '\\' → p = [] → False)
    (hescape : ∀ d q, c = '\\' → p = d :: q → False) (hany : c = '%' → False)
    (hone : c = '_' → False) : c ∉ special := by
  have hc : c ≠ '\\' := by
    intro hc
    cases p with
    | nil => exact hback hc rfl
    | cons d q => exact hescape d q hc rfl
  simp only [special, List.mem_cons, List.not_mem_nil, or_false]
  rintro (h | h | h)
  · exact hany h
  · exact hone h
  · exact hc h

/-- Nothing grows: a wildcard after the search text is dropped, or is what a backslash escapes. -/
theorem length_shortest_le (s : List Char) (wanted : Bool) :
    (shortest (s ++ wild wanted)).length ≤ s.length := by
  induction s using shortest.induct with
  | case1 => cases wanted <;> simp [wild, shortest]
  | case2 => cases wanted <;> simp [wild, shortest]
  | case3 c s ih =>
    simp only [List.cons_append, shortest, List.length_cons]
    omega
  | case4 s ih =>
    simp only [List.cons_append, shortest, List.length_cons]
    omega
  | case5 s ih => simpa [shortest] using ih
  | case6 c s hback hescape hany hone ih =>
    rw [List.cons_append, shortest_self (notMem_special hback hescape hany hone)]
    simpa using ih

/-- Every special character leaves a trace. -/
theorem plain_of_shortest (h : shortest (s ++ wild wanted) = s) : ∀ c ∈ s, c ∉ special := by
  induction s using shortest.induct with
  | case1 => nofun
  | case2 => cases wanted <;> cases h
  | case3 c s ih =>
    have hle := length_shortest_le s wanted
    have hlength := congrArg List.length h
    simp only [List.cons_append, shortest, List.length_cons] at hlength
    omega
  | case4 s ih =>
    have hle := length_shortest_le s wanted
    have hlength := congrArg List.length h
    simp only [List.cons_append, shortest, List.length_cons] at hlength
    omega
  | case5 s ih => cases (List.cons.inj h).1
  | case6 c s hback hescape hany hone ih =>
    have hc := notMem_special hback hescape hany hone
    rw [List.cons_append, shortest_self hc] at h
    exact List.forall_mem_cons.mpr ⟨hc, ih (List.cons.inj h).2⟩

/-! ## Search texts -/

/-- The pattern for a search text. -/
def wrapped (before after : Bool) (s : List Char) : List Char :=
  wild before ++ (s ++ wild after)

theorem like_wrapped (hs : ∀ c ∈ s, c ∉ special) :
    Like (wrapped before after s) t ↔ Finds before after s t := by
  simp only [wrapped, like_wild_append, like_append hs, like_wild, Finds]
  constructor
  · rintro ⟨u, _, rfl, hu, v, rfl, hv⟩
    exact ⟨u, v, rfl, hu, hv⟩
  · rintro ⟨u, v, rfl, hu, hv⟩
    exact ⟨u, _, rfl, hu, v, rfl, hv⟩

/-- Without backslashes in the search text nothing is missed. -/
theorem like_of_finds (hs : '\\' ∉ s) (h : Finds before after s t) :
    Like (wrapped before after s) t := by
  obtain ⟨u, v, rfl, hu, hv⟩ := h
  exact like_wild_append.mpr ⟨u, s ++ v, rfl, hu, (like_wild.mpr hv).append hs⟩

/-- The pattern matches exactly the texts that hold the search text if no character of that is
special. -/
theorem like_iff_finds :
    (∀ t, Like (wrapped before after s) t ↔ Finds before after s t) ↔ ∀ c ∈ s, c ∉ special := by
  refine ⟨fun h => ?_, fun hs t => like_wrapped hs⟩
  have hself : Finds before after s s := ⟨[], [], by simp, fun _ => rfl, fun _ => rfl⟩
  -- the pattern matches the search text, hence its shortest match, which then holds the search text
  obtain ⟨u, v, heq, -, -⟩ := (h _).mp (like_shortest ((h s).mpr hself))
  have hle := length_shortest_le s after
  rw [wrapped, shortest_wild_append] at heq
  have hlength := congrArg List.length heq
  simp only [List.length_append] at hlength
  have hu : u = [] := List.length_eq_zero_iff.mp (by omega)
  have hv : v = [] := List.length_eq_zero_iff.mp (by omega)
  rw [hu, hv, List.nil_append, List.append_nil] at heq
  exact plain_of_shortest heq

end RelQuery.Text
