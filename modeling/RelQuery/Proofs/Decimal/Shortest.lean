import Mathlib.Data.Nat.Cast.Order.Field
import RelQuery.Proofs.Decimal.Interval

/-!
# Shortest decimals

The shortest decimal of a double rounds to it: the search ends, since a grid of seventeen digits is
finer than the interval. So no two doubles have the same shortest decimal.
-/

namespace RelQuery.Decimal

variable {x y : Binary64} {tie : Tie} {n num den fuel : Nat} {k lead : Int} {d : Decimal}

/-! ## Grids -/

/-- The quotient on a grid, with its remainder. -/
theorem scaled_eq (num : Nat) (hden : 0 < den) (k : Int) :
    ((scaled num den k).1 : ℚ) / (scaled num den k).2 = num / den / 10 ^ k ∧
      0 < (scaled num den k).2 := by
  have hne : (den : ℚ) ≠ 0 := by exact_mod_cast hden.ne'
  unfold scaled
  split
  · rename_i h
    obtain ⟨k, rfl⟩ := Int.eq_ofNat_of_zero_le h
    refine ⟨?_, Nat.mul_pos hden (Nat.pow_pos (by norm_num))⟩
    simp [div_div]
  · rename_i h
    obtain ⟨k, rfl⟩ : ∃ j : Nat, k = -j := ⟨(-k).toNat, by omega⟩
    refine ⟨?_, hden⟩
    simp [zpow_neg]
    ring

theorem le_scaled_iff (hden : 0 < den) :
    (scaled num den k).2 ≤ (scaled num den k).1 ↔ (10 : ℚ) ^ k ≤ num / den := by
  obtain ⟨heq, hpos⟩ := scaled_eq num hden k
  have hpos' : (0 : ℚ) < (scaled num den k).2 := by exact_mod_cast hpos
  have hpow : (0 : ℚ) < 10 ^ k := by positivity
  rw [← one_le_div hpow, ← heq, one_le_div hpos', Nat.cast_le]

/-- What the search finds on a grid lies in the interval. -/
theorem contains_of_nearest? {i : Interval} (h : nearest? tie i k = some n) :
    i.contains (fraction n k).1 (fraction n k).2 = true := by
  unfold nearest? at h
  dsimp only at h
  generalize hb : (scaled i.value i.den k).1 / (scaled i.value i.den k).2 = below at h
  split at h
  · cases h
  · rename_i hin _
    cases h
    exact hin
  · rename_i _ hin
    cases h
    exact hin
  · rename_i hin hin'
    -- All of them are one of the two neighbours.
    have hcase : n = below ∨ n = below + 1 := by
      split at h
      · exact .inl (Option.some.inj h).symm
      · split at h
        · exact .inr (Option.some.inj h).symm
        · cases tie with
          | even =>
            have := Option.some.inj h
            omega
          | up => exact .inr (Option.some.inj h).symm
    rcases hcase with rfl | rfl
    · exact hin
    · exact hin'

/-- The quotient on a grid is the last point of the grid up to the double. -/
theorem quotient_around (x : Binary64) (k : Int) {a b : Nat}
    (ha : (scaled (interval x).value (interval x).den k).1 = a)
    (hb : (scaled (interval x).value (interval x).den k).2 = b) :
    ((a / b : Nat) : ℚ) * 10 ^ k ≤ x.size ∧ x.size < ((a / b + 1 : Nat) : ℚ) * 10 ^ k := by
  have hpow : (0 : ℚ) < 10 ^ k := by positivity
  obtain ⟨heq, hpos⟩ := scaled_eq (interval x).value (den_pos x) k
  rw [value_div_den, ha, hb] at heq
  rw [hb] at hpos
  have hpos' : (0 : ℚ) < b := by exact_mod_cast hpos
  have hsize : x.size = a / b * 10 ^ k := by rw [heq, div_mul_cancel₀ _ hpow.ne']
  rw [hsize]
  constructor
  · exact mul_le_mul_of_nonneg_right Nat.cast_div_le hpow.le
  · refine mul_lt_mul_of_pos_right ?_ hpow
    rw [div_lt_iff₀ hpos']
    exact_mod_cast Nat.lt_mul_of_div_lt (Nat.lt_succ_self _) hpos

/-- A grid finer than three quarters of the last place has a point in the interval. -/
theorem exists_nearest? (hzero : x.isZero = false)
    (hfine : (10 : ℚ) ^ k < (2 + x.gap) * 2 ^ (x.exp - 2)) :
    ∃ n, nearest? tie (interval x) k = some n := by
  generalize hnum : (scaled (interval x).value (interval x).den k).1 = a
  generalize hden : (scaled (interval x).value (interval x).den k).2 = b
  obtain ⟨hbelow, habove⟩ := quotient_around x k hnum hden
  have hnear : ((a / b + 1 : Nat) : ℚ) * 10 ^ k - ((a / b : Nat) : ℚ) * 10 ^ k <
      (2 + x.gap) * 2 ^ (x.exp - 2) := by
    push_cast
    linarith
  have hinside := Binary64.rounds_of_around hbelow habove hnear
  rw [← contains_iff hzero, ← contains_iff hzero] at hinside
  unfold nearest?
  dsimp only
  rw [hnum, hden]
  split
  · rename_i h h'
    rw [h, h'] at hinside
    exact absurd hinside (by simp)
  · exact ⟨_, rfl⟩
  · exact ⟨_, rfl⟩
  · split
    · exact ⟨_, rfl⟩
    · split
      · exact ⟨_, rfl⟩
      · cases tie <;> exact ⟨_, rfl⟩

theorem value_strip (fuel : Nat) (d : Decimal) : (strip fuel d).value = d.value := by
  induction fuel generalizing d with
  | zero => rfl
  | succ fuel ih =>
    rw [strip]
    split
    · rename_i h
      have hdigits : (d.digits : ℚ) = 10 * (d.digits / 10 : Nat) := by
        have : d.digits = 10 * (d.digits / 10) := by omega
        exact_mod_cast this
      rw [ih, value, value, hdigits, zpow_add₀ (by norm_num)]
      ring
    · rfl

/-! ## Seventeen digits -/

theorem rounds_shortestFrom (hzero : x.isZero = false)
    (hlast : ∃ n, nearest? tie (interval x) (lead - 16) = some n) (hfuel : fuel ≤ 17)
    (hpos : 0 < fuel) :
    x.Rounds (shortestFrom tie (interval x) lead fuel (18 - fuel)).value := by
  induction fuel with
  | zero => omega
  | succ fuel ih =>
    rw [shortestFrom]
    split
    · rename_i n hn
      rw [value_strip]
      exact (contains_iff hzero).mp (contains_of_nearest? hn)
    · rename_i hnone
      rcases Nat.eq_zero_or_pos fuel with rfl | hfuel'
      · obtain ⟨n, hn⟩ := hlast
        have hk : lead - ((18 - (0 + 1) : Nat) : Int) + 1 = lead - 16 := by omega
        rw [hk, hn] at hnone
        cases hnone
      · have hcount : 18 - (fuel + 1) + 1 = 18 - fuel := by omega
        rw [hcount]
        exact ih (by omega) hfuel'

/-! ## The leading digit -/

/-- Powers of ten below powers of two: `196 / 59` and `93 / 28` lie on both sides of the binary
logarithm of ten. -/
theorem ten_zpow_le_two_zpow {a b : Int} (h : 196 * a ≤ 59 * b) (h' : 93 * a ≤ 28 * b) :
    (10 : ℚ) ^ a ≤ 2 ^ b := by
  rcases le_total 0 a with ha | ha
  · obtain ⟨a, rfl⟩ := Int.eq_ofNat_of_zero_le ha
    obtain ⟨b, rfl⟩ := Int.eq_ofNat_of_zero_le (show 0 ≤ b by omega)
    refine le_of_pow_le_pow_left₀ (n := 59) (by norm_num) (by positivity) ?_
    calc ((10 : ℚ) ^ (a : Int)) ^ 59 = (10 ^ 59) ^ a := by
          rw [zpow_natCast, ← pow_mul, ← pow_mul, Nat.mul_comm]
      _ ≤ (2 ^ 196) ^ a := by gcongr; norm_num
      _ = 2 ^ (196 * a) := by rw [← pow_mul]
      _ ≤ 2 ^ (59 * b) := pow_le_pow_right₀ (by norm_num) (by omega)
      _ = (2 ^ (b : Int)) ^ 59 := by rw [zpow_natCast, ← pow_mul, Nat.mul_comm]
  · rcases le_total 0 b with hb | hb
    · have hten : (10 : ℚ) ^ a ≤ 1 := zpow_le_one_of_nonpos₀ (by norm_num) ha
      have htwo : (1 : ℚ) ≤ 2 ^ b := one_le_zpow₀ (by norm_num) hb
      exact hten.trans htwo
    · obtain ⟨n, rfl⟩ : ∃ n : Nat, a = -n := ⟨a.natAbs, by omega⟩
      obtain ⟨t, rfl⟩ : ∃ t : Nat, b = -t := ⟨b.natAbs, by omega⟩
      rw [zpow_neg, zpow_neg, zpow_natCast, zpow_natCast]
      refine inv_anti₀ (by positivity) ?_
      refine le_of_pow_le_pow_left₀ (n := 93) (by norm_num) (by positivity) ?_
      calc ((2 : ℚ) ^ t) ^ 93 = (2 ^ 93) ^ t := by rw [← pow_mul, ← pow_mul, Nat.mul_comm]
        _ ≤ (10 ^ 28) ^ t := by gcongr; norm_num
        _ = 10 ^ (28 * t) := by rw [← pow_mul]
        _ ≤ 10 ^ (93 * n) := pow_le_pow_right₀ (by norm_num) (by omega)
        _ = (10 ^ n) ^ 93 := by rw [← pow_mul, Nat.mul_comm]

theorem two_zpow_lt_ratio (hnum : 0 < num) (hden : 0 < den) :
    (2 : ℚ) ^ ((num.log2 : Int) - den.log2 - 1) < num / den := by
  have hden' : (0 : ℚ) < den := by exact_mod_cast hden
  have hlow : (2 : ℚ) ^ num.log2 ≤ num := by exact_mod_cast Nat.log2_self_le hnum.ne'
  have hhigh : (den : ℚ) < 2 ^ (den.log2 + 1) := by exact_mod_cast Nat.lt_log2_self
  rw [lt_div_iff₀ hden']
  calc (2 : ℚ) ^ ((num.log2 : Int) - den.log2 - 1) * den
      < 2 ^ ((num.log2 : Int) - den.log2 - 1) * 2 ^ (den.log2 + 1) := by gcongr
    _ = 2 ^ num.log2 := by
        rw [← zpow_natCast, ← zpow_natCast, ← zpow_add₀ (by norm_num)]
        congr 1
        push_cast
        omega
    _ ≤ num := hlow

/-- The estimate of the leading digit is never too high. -/
theorem magnitude_le (hnum : 0 < num) (hden : 0 < den)
    (hlow : -1100 ≤ (num.log2 : Int) - den.log2) (hhigh : (num.log2 : Int) - den.log2 ≤ 1100) :
    (10 : ℚ) ^ magnitude num den ≤ num / den := by
  unfold magnitude
  dsimp only
  generalize hguess : (((num.log2 : Int) - den.log2) * 30103).fdiv 100000 = guess
  split
  · rename_i h
    exact (le_scaled_iff hden).mp (by simpa using h)
  · split
    · rename_i h
      exact (le_scaled_iff hden).mp (by simpa using h)
    · rw [Int.fdiv_eq_ediv_of_nonneg _ (by norm_num)] at hguess
      exact (ten_zpow_le_two_zpow (by omega) (by omega)).trans (two_zpow_lt_ratio hnum hden).le

/-! ## Doubles -/

theorem ratio_eq (x : Binary64) : (x.ratio.1 : ℚ) / x.ratio.2 = x.size ∧ 0 < x.ratio.2 := by
  unfold Binary64.ratio Binary64.size
  split
  · rename_i h
    obtain ⟨e, he⟩ := Int.eq_ofNat_of_zero_le h
    simp [he]
  · rename_i h
    obtain ⟨e, he⟩ : ∃ e : Nat, x.exp = -e := ⟨(-x.exp).toNat, by omega⟩
    refine ⟨?_, Nat.pow_pos (by norm_num)⟩
    simp [he, zpow_neg, div_eq_mul_inv]

theorem log2_ratio (hzero : x.isZero = false) : 0 < x.ratio.1 ∧
    -1100 ≤ (x.ratio.1.log2 : Int) - x.ratio.2.log2 ∧
    (x.ratio.1.log2 : Int) - x.ratio.2.log2 ≤ 1100 := by
  have hman : 0 < x.man := Binary64.one_le_man hzero
  have hlt := x.man_lt
  have hge := x.exp_ge
  have hle := x.exp_le
  unfold Binary64.ratio
  split
  · have hpos : 0 < x.man * 2 ^ x.exp.toNat := Nat.mul_pos hman (Nat.pow_pos (by norm_num))
    have hlog : (x.man * 2 ^ x.exp.toNat).log2 < 53 + x.exp.toNat := by
      rw [Nat.log2_lt hpos.ne', Nat.pow_add]
      exact Nat.mul_lt_mul_of_pos_right hlt (Nat.pow_pos (by norm_num))
    refine ⟨hpos, ?_, ?_⟩
    · have hone : Nat.log2 1 = 0 := by decide
      change -1100 ≤ ((x.man * 2 ^ x.exp.toNat).log2 : Int) - (Nat.log2 1 : Nat)
      rw [hone]
      omega
    · change ((x.man * 2 ^ x.exp.toNat).log2 : Int) - (Nat.log2 1 : Nat) ≤ 1100
      omega
  · have hlog : x.man.log2 < 53 := (Nat.log2_lt hman.ne').mpr hlt
    have hlog' : (Nat.pow 2 (-x.exp).toNat).log2 = (-x.exp).toNat := Nat.log2_two_pow
    refine ⟨hman, ?_, ?_⟩
    · dsimp only
      omega
    · dsimp only
      omega

/-- Seventeen digits: the grid is finer than the interval of the double. -/
theorem fine_of_magnitude (h : (10 : ℚ) ^ lead ≤ x.size) :
    (10 : ℚ) ^ (lead - 16) < (2 + x.gap) * 2 ^ (x.exp - 2) := by
  have hquarter : (0 : ℚ) < 2 ^ (x.exp - 2) := by positivity
  have hsize : x.size = 4 * x.man * 2 ^ (x.exp - 2) := by
    rw [Binary64.size, zpow_sub₀ (by norm_num)]
    norm_num
    ring
  have hman : (4 * x.man : ℚ) < (2 + x.gap) * 10 ^ 16 := by
    have hlt := x.man_lt
    have : 4 * x.man < (2 + x.gap) * 10 ^ 16 := by
      rcases Binary64.gap_eq x with ⟨hgap, hman⟩ | hgap
      · rw [hgap, hman]
        norm_num
      · rw [hgap]
        omega
    exact_mod_cast this
  calc (10 : ℚ) ^ (lead - 16) = 10 ^ lead / 10 ^ 16 := by
        rw [zpow_sub₀ (by norm_num)]
        norm_cast
    _ ≤ x.size / 10 ^ 16 := by gcongr
    _ < (2 + x.gap) * 10 ^ 16 * 2 ^ (x.exp - 2) / 10 ^ 16 := by
        rw [hsize]
        gcongr
    _ = (2 + x.gap) * 2 ^ (x.exp - 2) := by ring

/-- The shortest decimal of a double rounds to it. -/
theorem rounds_shortest (tie : Tie) (hzero : x.isZero = false) :
    x.Rounds (shortest tie x).value := by
  obtain ⟨hnum, hlow, hhigh⟩ := log2_ratio hzero
  obtain ⟨hratio, hden⟩ := ratio_eq x
  have hlead : (10 : ℚ) ^ magnitude x.ratio.1 x.ratio.2 ≤ x.size :=
    hratio ▸ magnitude_le hnum hden hlow hhigh
  rw [shortest, hzero]
  exact rounds_shortestFrom hzero (exists_nearest? hzero (fine_of_magnitude hlead)) le_rfl
    (by norm_num)

theorem value_shortest_zero (h : x.isZero = true) : (shortest tie x).value = 0 := by
  rw [shortest, h]
  simp [value]

/-- Doubles with shortest decimals of one value agree but for the sign. -/
theorem eq_of_shortest (h : (shortest tie x).value = (shortest tie y).value) :
    x.man = y.man ∧ x.exp = y.exp := by
  cases hx : x.isZero with
  | true =>
    cases hy : y.isZero with
    | true =>
      have hxman : x.man = 0 := by simpa [Binary64.isZero] using hx
      have hyman : y.man = 0 := by simpa [Binary64.isZero] using hy
      refine ⟨by rw [hxman, hyman], ?_⟩
      rcases x.normal with hn | hn
      · omega
      · rcases y.normal with hn' | hn'
        · omega
        · rw [hn, hn']
    | false =>
      have hpos := (rounds_shortest tie hy).pos hy
      rw [← h, value_shortest_zero hx] at hpos
      exact absurd hpos (lt_irrefl _)
  | false =>
    have hround := rounds_shortest tie hx
    cases hy : y.isZero with
    | true =>
      have hpos := hround.pos hx
      rw [h, value_shortest_zero hy] at hpos
      exact absurd hpos (lt_irrefl _)
    | false => exact hround.unique (h ▸ rounds_shortest tie hy)

end RelQuery.Decimal
