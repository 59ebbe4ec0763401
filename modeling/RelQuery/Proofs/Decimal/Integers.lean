import Mathlib.Data.Rat.Floor
import RelQuery.Document.Basic
import RelQuery.Proofs.Decimal.Reading

/-!
# Integers of numbers and texts

The value of a number, its integer part towards zero, and the nearest `bigint` to that. Integers
from `2 ^ 63` on round to doubles from there on, so that for any number the nearest `bigint` to the
integer part of its double is that to its own. A text spells an integer by a sign and digits.
-/

namespace RelQuery

/-- The integer part, towards zero. -/
def integerPart (q : ℚ) : Int := if 0 ≤ q then ⌊q⌋ else ⌈q⌉

@[simp] theorem integerPart_intCast (n : Int) : integerPart n = n := by
  rw [integerPart, Int.floor_intCast, Int.ceil_intCast, ite_self]

theorem integerPart_neg {q : ℚ} (h : 0 ≤ q) : integerPart (-q) = -⌊q⌋ := by
  rcases h.eq_or_lt with rfl | h
  · simp [integerPart]
  · rw [integerPart, if_neg (by linarith), Int.ceil_neg]

/-! ## Doubles -/

namespace Binary64

variable {x : Binary64} {n : Nat}

def value (x : Binary64) : ℚ := if x.neg then -x.size else x.size

theorem size_nonneg (x : Binary64) : 0 ≤ x.size := by
  rw [size]
  positivity

theorem floor_size (x : Binary64) : ⌊x.size⌋ = (x.ratio.1 / x.ratio.2 : Nat) := by
  rw [← (Decimal.ratio_eq x).1, Rat.floor_natCast_div_natCast]
  exact (Int.natCast_div _ _).symm

theorem trunc_eq (x : Binary64) : x.trunc = integerPart x.value := by
  unfold trunc value
  dsimp only
  split
  · rw [integerPart_neg x.size_nonneg, floor_size]
  · rw [integerPart, if_pos x.size_nonneg, floor_size]

theorem roundQuotient_le (num den : Nat) : num / den ≤ roundQuotient num den ∧
    roundQuotient num den ≤ num / den + 1 := by
  unfold roundQuotient
  dsimp only
  split_ifs <;> omega

/-- The last integers of 64 bits round to doubles with their leading bit. -/
theorem exists_ofInt? (ge : 0x8000000000000000 ≤ n) (lt : n < 0x10000000000000000) :
    ∃ x, ofInt? n = some x ∧ 0x8000000000000000 ≤ x.trunc := by
  -- Of 64 bits a mantissa of 53 leaves out the last 11.
  have hlog : n.log2 = 63 := (Nat.log2_eq_iff (by omega)).mpr ⟨by omega, by omega⟩
  have hguess : (n.log2 : Int) - Nat.log2 1 - (53 - 1 : Nat) = 11 := by rw [hlog]; decide
  have hscaled : scaled n 1 11 = (n, 2048) := rfl
  have hexp : exponentFor 53 (-1074) n 1 = 11 := by
    have hquotient : ¬n / 2048 < Nat.pow 2 (53 - 1) := by
      change ¬n / 2048 < 4503599627370496
      omega
    unfold exponentFor
    dsimp only
    rw [hguess, hscaled]
    dsimp only
    rw [if_neg hquotient]
    rfl
  have hround : ofInt? n = if roundQuotient n 2048 = 0x20000000000000 then
      mk? false 0x10000000000000 12 else mk? false (roundQuotient n 2048) 11 := by
    have hneg : decide ((n : Int) < 0) = false := by simp
    rw [ofInt?, ofRatio?, Int.natAbs_natCast, if_neg (by omega), hneg, roundTo, hexp, hscaled]
    dsimp only
    by_cases h : roundQuotient n 2048 = 0x20000000000000
    · rw [if_pos h, if_pos h]
      rfl
    · rw [if_neg h, if_neg h]
  have hquotient := roundQuotient_le n 2048
  rw [hround]
  split
  · exact ⟨_, rfl, by decide⟩
  · refine ⟨_, dif_pos ⟨by omega, by decide, by decide, .inl (by omega)⟩, ?_⟩
    change 0x8000000000000000 ≤ ((roundQuotient n 2048 * 2048 / 1 : Nat) : Int)
    omega

end Binary64

/-! ## Numbers -/

theorem Bigint.eq_of_val_eq {a b : Bigint} (h : a.val = b.val) : a = b := by
  cases a
  cases b
  cases h
  rfl

theorem Bigint.clamp_val (n : Bigint) : clamp n.val = n := by
  have ge := n.ge
  have lt := n.lt
  refine eq_of_val_eq ?_
  change max (-0x8000000000000000) (min n.val 0x7fffffffffffffff) = n.val
  omega

/-- Integers beyond the range are read as its upper end. -/
theorem Bigint.clamp_congr {m n : Int} (hm : 0x7fffffffffffffff ≤ m)
    (hn : 0x7fffffffffffffff ≤ n) : clamp m = clamp n := by
  refine eq_of_val_eq ?_
  change max (-0x8000000000000000) (min m 0x7fffffffffffffff) =
    max (-0x8000000000000000) (min n 0x7fffffffffffffff)
  omega

theorem Bigint.ofInt?_eq_some {k : Int} {n : Bigint} : ofInt? k = some n ↔ n.val = k := by
  unfold ofInt?
  split
  · constructor
    · rintro ⟨⟩
      rfl
    · rintro rfl
      rfl
  · rename_i h
    have ge := n.ge
    have lt := n.lt
    constructor
    · nofun
    · rintro rfl
      exact (h ⟨ge, lt⟩).elim

namespace Number

/-- The number that a number of a document is. -/
def value : Number → ℚ
  | .int n _ _ => n
  | .float x => x.value

/-- The `bigint` nearest to the integer part of a number. -/
def nearestBigint (n : Number) : Bigint := .clamp (integerPart n.value)

/-- It is the number itself exactly if that is a `bigint`. -/
theorem nearestBigint_iff {n : Number} :
    (n.nearestBigint.val : ℚ) = n.value ↔ ∃ k : Bigint, (k.val : ℚ) = n.value := by
  constructor
  · exact fun h => ⟨_, h⟩
  · rintro ⟨k, hk⟩
    rw [nearestBigint, ← hk, integerPart_intCast, Bigint.clamp_val]

theorem nearestBigint_eq {n : Number} {k : Bigint} (h : n.value = k.val) :
    n.nearestBigint = k := by
  rw [nearestBigint, h, integerPart_intCast, Bigint.clamp_val]

/-- A number is read as an integer if it is a `bigint`, and else by way of its double. -/
theorem read_eq (n : Number) :
    (n.toBigint? <|> n.toBinary64?.map fun x => Bigint.clamp x.trunc) = some n.nearestBigint := by
  cases n with
  | float x => simp [toBigint?, toBinary64?, nearestBigint, value, Binary64.trunc_eq]
  | int n ge lt =>
    rw [nearestBigint, value, integerPart_intCast]
    by_cases h : n < 0x8000000000000000
    · have hn : Bigint.ofInt? n = some (.clamp n) :=
        Bigint.ofInt?_eq_some.mpr (congrArg Bigint.val (Bigint.clamp_val ⟨n, ge, h⟩))
      rw [toBigint?, hn]
      rfl
    · have hnone : Bigint.ofInt? n = none := dif_neg fun hn => h hn.2
      obtain ⟨m, rfl⟩ := Int.eq_ofNat_of_zero_le (by omega : 0 ≤ n)
      obtain ⟨x, hx, htrunc⟩ := Binary64.exists_ofInt? (n := m) (by omega) (by omega)
      rw [toBigint?, hnone, toBinary64?, hx]
      exact congrArg some (Bigint.clamp_congr (by omega) (by omega))

end Number

/-! ## Texts -/

namespace Numeral

/-- A text spells an integer by an optional sign and one or more digits. -/
inductive Spells : List Char → Int → Prop
  | plain {ds : List Char} : ds ≠ [] → (∀ c ∈ ds, c.isDigit = true) →
      Spells ds (Nat.ofDigitChars 10 ds 0)
  | plus {ds : List Char} : ds ≠ [] → (∀ c ∈ ds, c.isDigit = true) →
      Spells ('+' :: ds) (Nat.ofDigitChars 10 ds 0)
  | minus {ds : List Char} : ds ≠ [] → (∀ c ∈ ds, c.isDigit = true) →
      Spells ('-' :: ds) (-(Nat.ofDigitChars 10 ds 0))

variable {cs ds rest : List Char} {k : Int}

theorem sign_of_isDigit (hds : ∀ c ∈ ds, c.isDigit = true) : sign ds = (false, ds) := by
  unfold sign
  split
  · exact absurd (hds '+' List.mem_cons_self) (by decide)
  · exact absurd (hds '-' List.mem_cons_self) (by decide)
  · rfl

/-- What is read to its end as digits consists of digits. -/
theorem isDigit_of_digits {ns : List Nat} (h : digits cs = (ns, [])) :
    ∀ c ∈ cs, c.isDigit = true := by
  induction cs generalizing ns with
  | nil => nofun
  | cons c cs ih =>
    cases hc : c.isDigit with
    | false =>
      rw [digits, digit?_of_not_isDigit hc] at h
      cases h
    | true =>
      rw [digits, digit?_of_isDigit hc] at h
      dsimp only at h
      exact List.forall_mem_cons.mpr ⟨hc, ih (Prod.ext rfl (Prod.mk.inj h).2)⟩

theorem int?_of_sign {neg : Bool} (hsign : sign cs = (neg, ds)) (hne : ds ≠ [])
    (hds : ∀ c ∈ ds, c.isDigit = true) : int? cs =
      some (if neg then -(Nat.ofDigitChars 10 ds 0 : Int) else Nat.ofDigitChars 10 ds 0) := by
  rw [int?, hsign]
  dsimp only
  rw [digits_eq hds, ← ofDigits_map]
  cases ds with
  | nil => exact (hne rfl).elim
  | cons c ds => rfl

theorem int?_of_spells (h : Spells cs k) : int? cs = some k := by
  cases h with
  | plain hne hds => exact int?_of_sign (sign_of_isDigit hds) hne hds
  | @plus ds hne hds => exact int?_of_sign (rfl : sign ('+' :: ds) = (false, ds)) hne hds
  | @minus ds hne hds => exact int?_of_sign (rfl : sign ('-' :: ds) = (true, ds)) hne hds

/-- A text is read as an integer exactly if it spells it. -/
theorem int?_eq_some : int? cs = some k ↔ Spells cs k := by
  refine ⟨fun h => ?_, int?_of_spells⟩
  have hread : ∃ neg ds, sign cs = (neg, ds) ∧ ds ≠ [] ∧ ∀ c ∈ ds, c.isDigit = true := by
    rcases hsign : sign cs with ⟨neg, ds⟩
    rw [int?, hsign] at h
    dsimp only at h
    split at h
    · cases h
    · rename_i ns hne hdigits
      refine ⟨neg, ds, rfl, ?_, isDigit_of_digits hdigits⟩
      rintro rfl
      cases hdigits
      exact hne rfl
    · cases h
  obtain ⟨neg, ds, hsign, hne, hds⟩ := hread
  rw [int?_of_sign hsign hne hds] at h
  unfold sign at hsign
  split at hsign <;> cases hsign <;> cases h
  · exact .plus hne hds
  · exact .minus hne hds
  · exact .plain hne hds

theorem Spells.unique {j : Int} (h : Spells cs j) (h' : Spells cs k) : j = k :=
  Option.some.inj ((int?_of_spells h).symm.trans (int?_of_spells h'))

end Numeral

end RelQuery
