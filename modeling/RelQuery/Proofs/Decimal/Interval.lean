import Mathlib.Algebra.Order.Field.Power
import Mathlib.Data.Rat.Cast.Order
import Mathlib.Tactic.FieldSimp
import Mathlib.Tactic.GCongr
import Mathlib.Tactic.Linarith
import Mathlib.Tactic.NormNum
import Mathlib.Tactic.Positivity
import Mathlib.Tactic.Ring
import RelQuery.Decimal.Shortest

/-!
# Rounding intervals

The reals that round to a double lie between the points half-way to its neighbours. No real lies in
the intervals of two doubles, so a decimal in the interval of a double determines it.
-/

namespace RelQuery

/-- The number that a decimal stands for. -/
def Decimal.value (d : Decimal) : ℚ := d.digits * 10 ^ d.exp

namespace Binary64

variable {x y : Binary64} {q : ℚ}

/-- The absolute value. -/
def size (x : Binary64) : ℚ := x.man * 2 ^ x.exp

/-- The distance to the lower end of the interval, in quarters of the last place. -/
def gap (x : Binary64) : Nat := if x.man = 0x10000000000000 ∧ -1074 < x.exp then 1 else 2

def low (x : Binary64) : ℚ := (4 * x.man - x.gap) * 2 ^ (x.exp - 2)

def high (x : Binary64) : ℚ := (4 * x.man + 2) * 2 ^ (x.exp - 2)

/-- The ends belong to the interval of a double with even significand. -/
def Rounds (x : Binary64) (q : ℚ) : Prop :=
  (x.low < q ∧ q < x.high) ∨ (x.man % 2 = 0 ∧ x.low ≤ q ∧ q ≤ x.high)

theorem gap_eq (x : Binary64) : x.gap = 1 ∧ x.man = 0x10000000000000 ∨ x.gap = 2 := by
  unfold gap
  split
  · rename_i h
    exact .inl ⟨rfl, h.1⟩
  · exact .inr rfl

theorem gap_of_least (h : x.man = 0x10000000000000) (hexp : -1074 < x.exp) : x.gap = 1 :=
  if_pos ⟨h, hexp⟩

theorem gap_pos (x : Binary64) : 0 < x.gap := by
  rcases x.gap_eq with ⟨h, -⟩ | h <;> omega

theorem size_eq (x : Binary64) : x.size = 4 * x.man * 2 ^ (x.exp - 2) := by
  rw [size, zpow_sub₀ (by norm_num)]
  norm_num
  ring

/-- The lower end lies one gap below the double. -/
theorem low_eq (x : Binary64) : x.low = x.size - x.gap * 2 ^ (x.exp - 2) := by
  rw [size_eq, low]
  ring

/-- The upper end lies two quarters of the last place above the double. -/
theorem high_eq (x : Binary64) : x.high = x.size + 2 * 2 ^ (x.exp - 2) := by
  rw [size_eq, high]
  ring

theorem low_lt_size (x : Binary64) : x.low < x.size := by
  have hgap : (0 : ℚ) < x.gap := by exact_mod_cast x.gap_pos
  have hquarter : (0 : ℚ) < 2 ^ (x.exp - 2) := by positivity
  rw [low_eq]
  linarith [mul_pos hgap hquarter]

theorem size_lt_high (x : Binary64) : x.size < x.high := by
  have hquarter : (0 : ℚ) < 2 ^ (x.exp - 2) := by positivity
  rw [high_eq]
  linarith

/-- Of two points around a double that are nearer to each other than the ends of its interval, one
lies in the interval. -/
theorem rounds_of_around {p q : ℚ} (hp : p ≤ x.size) (hq : x.size < q)
    (hnear : q - p < (2 + x.gap) * 2 ^ (x.exp - 2)) : x.Rounds p ∨ x.Rounds q := by
  by_cases hleft : x.low < p
  · exact .inl (.inl ⟨hleft, lt_of_le_of_lt hp x.size_lt_high⟩)
  · refine .inr (.inl ⟨lt_trans x.low_lt_size hq, ?_⟩)
    rw [low_eq] at hleft
    rw [high_eq]
    linarith

theorem Rounds.low_le (h : x.Rounds q) : x.low ≤ q := by
  rcases h with h | h
  · exact h.1.le
  · exact h.2.1

theorem Rounds.le_high (h : x.Rounds q) : q ≤ x.high := by
  rcases h with h | h
  · exact h.2.le
  · exact h.2.2

/-- An end of the interval rounds to the double only if the significand is even. -/
theorem Rounds.even_of_end (h : x.Rounds q) (hend : q = x.low ∨ q = x.high) : x.man % 2 = 0 := by
  rcases h with ⟨hl, hh⟩ | ⟨heven, -, -⟩
  · rcases hend with rfl | rfl
    · exact absurd hl (lt_irrefl _)
    · exact absurd hh (lt_irrefl _)
  · exact heven

/-- A smaller double: by its exponent, then by its significand. -/
def Below (x y : Binary64) : Prop := x.exp < y.exp ∨ x.exp = y.exp ∧ x.man < y.man

/-- The scaled ends of two intervals in order: they meet only between neighbours, one of which has
an odd significand. -/
theorem ends_of_below (h : x.Below y) : ∃ k : Nat, y.exp = x.exp + k ∧
    4 * x.man + 2 + y.gap * 2 ^ k ≤ 4 * y.man * 2 ^ k ∧
    (4 * x.man + 2 + y.gap * 2 ^ k = 4 * y.man * 2 ^ k → x.man % 2 = 0 → y.man % 2 = 1) := by
  have hx := x.man_lt
  rcases h with hexp | ⟨hexp, hman⟩
  · obtain ⟨k, hk⟩ : ∃ k : Nat, y.exp = x.exp + 1 + k := ⟨(y.exp - x.exp - 1).toNat, by omega⟩
    have hleast : -1074 < y.exp := by have := x.exp_ge; omega
    have hy : 0x10000000000000 ≤ y.man := by
      rcases y.normal with h | h
      · exact h
      · omega
    have hpow : 2 ^ (k + 1) = 2 * 2 ^ k := by rw [Nat.pow_succ, Nat.mul_comm]
    have hone : 1 ≤ 2 ^ k := Nat.one_le_two_pow
    -- The lower end of `y` is at least two places of `x` for each of its own quarters.
    have hroom : 2 * (4 * y.man - y.gap) ≤ (4 * y.man - y.gap) * 2 ^ (k + 1) := by
      rw [hpow, Nat.mul_comm 2]
      exact Nat.mul_le_mul_left _ (by omega)
    have hend : 4 * x.man + 2 ≤ 2 * (4 * y.man - y.gap) ∧
        (x.man % 2 = 0 → 4 * x.man + 2 < 2 * (4 * y.man - y.gap)) := by
      rcases gap_eq y with ⟨hgap, hman⟩ | hgap
      · omega
      · have : y.man ≠ 0x10000000000000 := fun h => by
          have := gap_of_least h hleast
          omega
        omega
    have hsplit : (4 * y.man - y.gap) * 2 ^ (k + 1) + y.gap * 2 ^ (k + 1) =
        4 * y.man * 2 ^ (k + 1) := by
      rw [← Nat.add_mul, Nat.sub_add_cancel]
      rcases gap_eq y with ⟨hgap, -⟩ | hgap <;> omega
    refine ⟨k + 1, by push_cast; omega, by omega, fun heq heven => ?_⟩
    have := hend.2 heven
    omega
  · refine ⟨0, by simpa using hexp.symm, ?_, ?_⟩
    · rcases gap_eq y with ⟨hgap, -⟩ | hgap <;> omega
    · rcases gap_eq y with ⟨hgap, -⟩ | hgap <;> omega

theorem high_le_low (h : x.Below y) :
    x.high ≤ y.low ∧ (x.high = y.low → x.man % 2 = 0 → y.man % 2 = 1) := by
  obtain ⟨k, hexp, hle, hodd⟩ := ends_of_below h
  have hlow : y.low = (4 * y.man * 2 ^ k - y.gap * 2 ^ k) * 2 ^ (x.exp - 2) := by
    have hadd : y.exp - 2 = k + (x.exp - 2) := by omega
    rw [low, hadd, zpow_add₀ (by norm_num), zpow_natCast]
    ring
  have hpos : (0 : ℚ) < 2 ^ (x.exp - 2) := by positivity
  have hle' : (4 * x.man + 2 + y.gap * 2 ^ k : ℚ) ≤ 4 * y.man * 2 ^ k := by exact_mod_cast hle
  rw [high, hlow]
  constructor
  · exact mul_le_mul_of_nonneg_right (by linarith) hpos.le
  · intro heq
    have heq' : (4 * x.man + 2 + y.gap * 2 ^ k : ℚ) = 4 * y.man * 2 ^ k := by
      have := mul_right_cancel₀ hpos.ne' heq
      linarith
    exact hodd (by exact_mod_cast heq')

theorem not_rounds_of_below (h : x.Below y) (hx : x.Rounds q) : ¬y.Rounds q := by
  intro hy
  obtain ⟨hle, hodd⟩ := high_le_low h
  have hhigh : q = x.high := le_antisymm hx.le_high (hle.trans hy.low_le)
  have hlow : q = y.low := le_antisymm (hx.le_high.trans hle) hy.low_le
  have hxeven := hx.even_of_end (.inr hhigh)
  have hyeven := hy.even_of_end (.inl hlow)
  have := hodd (hhigh.symm.trans hlow) hxeven
  omega

/-- A real in the intervals of two doubles: they agree but for the sign. -/
theorem Rounds.unique (hx : x.Rounds q) (hy : y.Rounds q) : x.man = y.man ∧ x.exp = y.exp := by
  rcases lt_trichotomy x.exp y.exp with h | h | h
  · exact absurd hy (not_rounds_of_below (.inl h) hx)
  · rcases lt_trichotomy x.man y.man with h' | h' | h'
    · exact absurd hy (not_rounds_of_below (.inr ⟨h, h'⟩) hx)
    · exact ⟨h', h⟩
    · exact absurd hx (not_rounds_of_below (.inr ⟨h.symm, h'⟩) hy)
  · exact absurd hx (not_rounds_of_below (.inl h) hy)

theorem one_le_man (hzero : x.isZero = false) : 1 ≤ x.man :=
  Nat.one_le_iff_ne_zero.mpr (by simpa [isZero] using hzero)

theorem Rounds.pos (hzero : x.isZero = false) (h : x.Rounds q) : 0 < q := by
  have hman := one_le_man hzero
  refine lt_of_lt_of_le ?_ h.low_le
  have hgap : (x.gap : ℚ) < 4 * x.man := by
    have : x.gap < 4 * x.man := by rcases gap_eq x with ⟨h, -⟩ | h <;> omega
    exact_mod_cast this
  exact mul_pos (by linarith) (by positivity)

end Binary64

namespace Decimal

variable {x : Binary64} {n : Nat} {k : Int}

theorem fraction_eq (n : Nat) (k : Int) :
    ((fraction n k).1 : ℚ) / (fraction n k).2 = n * 10 ^ k ∧ 0 < (fraction n k).2 := by
  unfold fraction
  split
  · rename_i h
    obtain ⟨k, rfl⟩ := Int.eq_ofNat_of_zero_le h
    simp
  · rename_i h
    obtain ⟨k, rfl⟩ : ∃ j : Nat, k = -j := ⟨(-k).toNat, by omega⟩
    refine ⟨?_, Nat.pow_pos (by norm_num)⟩
    simp [zpow_neg, div_eq_mul_inv]

/-- A quarter of the last place of a double as a fraction. -/
def quarter (x : Binary64) : Nat × Nat :=
  if 0 ≤ x.exp - 2 then (2 ^ (x.exp - 2).toNat, 1) else (1, 2 ^ (-(x.exp - 2)).toNat)

theorem interval_eq (x : Binary64) : interval x =
    ⟨(4 * x.man - x.gap) * (quarter x).1, 4 * x.man * (quarter x).1,
      (4 * x.man + 2) * (quarter x).1, (quarter x).2, x.man % 2 == 0⟩ := rfl

theorem quarter_eq (x : Binary64) :
    ((quarter x).1 : ℚ) / (quarter x).2 = 2 ^ (x.exp - 2) ∧ 0 < (quarter x).2 := by
  unfold quarter
  split
  · rename_i h
    obtain ⟨e, he⟩ := Int.eq_ofNat_of_zero_le h
    simp [he]
  · rename_i h
    obtain ⟨e, he⟩ : ∃ e : Nat, x.exp - 2 = -e := ⟨(-(x.exp - 2)).toNat, by omega⟩
    simp [he, zpow_neg]

theorem den_pos (x : Binary64) : 0 < (interval x).den := (quarter_eq x).2

theorem low_div_den (hzero : x.isZero = false) :
    ((interval x).low : ℚ) / (interval x).den = x.low := by
  have hgap : x.gap ≤ 4 * x.man := by
    have := Binary64.one_le_man hzero
    rcases Binary64.gap_eq x with ⟨h, -⟩ | h <;> omega
  rw [interval_eq, Binary64.low, ← (quarter_eq x).1, ← mul_div_assoc]
  push_cast [Nat.cast_sub hgap]
  rfl

theorem high_div_den (x : Binary64) : ((interval x).high : ℚ) / (interval x).den = x.high := by
  rw [interval_eq, Binary64.high, ← (quarter_eq x).1, ← mul_div_assoc]
  push_cast
  rfl

theorem value_div_den (x : Binary64) : ((interval x).value : ℚ) / (interval x).den = x.size := by
  rw [interval_eq, Binary64.size, ← sub_add_cancel x.exp 2, zpow_add₀ (by norm_num),
    ← (quarter_eq x).1]
  push_cast
  ring

/-- What the interval of a double contains rounds to it. -/
theorem contains_iff (hzero : x.isZero = false) :
    (interval x).contains (fraction n k).1 (fraction n k).2 = true ↔ x.Rounds (n * 10 ^ k) := by
  obtain ⟨hfrac, hpos⟩ := fraction_eq n k
  have hden' : (0 : ℚ) < (interval x).den := by exact_mod_cast den_pos x
  have hpos' : (0 : ℚ) < (fraction n k).2 := by exact_mod_cast hpos
  have hclosed : (interval x).closed = true ↔ x.man % 2 = 0 := beq_iff_eq
  rw [← hfrac, Binary64.Rounds, ← low_div_den hzero, ← high_div_den, ← hclosed,
    div_lt_div_iff₀ hden' hpos',
    div_lt_div_iff₀ hpos' hden', div_le_div_iff₀ hden' hpos', div_le_div_iff₀ hpos' hden']
  unfold Interval.contains
  norm_cast
  cases (interval x).closed with
  | false => simp
  | true =>
    simp only [if_true, Bool.and_eq_true, decide_eq_true_eq, true_and]
    exact ⟨.inr, fun h => h.elim (fun h => ⟨h.1.le, h.2.le⟩) id⟩

end Decimal

end RelQuery
