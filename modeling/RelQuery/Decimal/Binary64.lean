/-!
# Finite doubles

The finite IEEE 754 binary64 numbers as exact values `± man · 2 ^ exp`, and the rounding of a
fraction to the nearest of them, ties to the even one.
-/

namespace RelQuery

/-- A finite double in its one normalised form. Zero has both signs. -/
structure Binary64 where
  neg : Bool
  man : Nat
  exp : Int
  /-- The significand has 53 bits. -/
  man_lt : man < 0x20000000000000
  exp_ge : -1074 ≤ exp
  exp_le : exp ≤ 971
  /-- The first of its bits is set, unless the exponent is the least one. -/
  normal : 0x10000000000000 ≤ man ∨ exp = -1074
  deriving DecidableEq

namespace Binary64

/-- The double with this significand and exponent, if they are in normalised form. -/
def mk? (neg : Bool) (man : Nat) (exp : Int) : Option Binary64 :=
  if h : man < 0x20000000000000 ∧ -1074 ≤ exp ∧ exp ≤ 971 ∧
      (0x10000000000000 ≤ man ∨ exp = -1074) then
    some ⟨neg, man, exp, h.1, h.2.1, h.2.2.1, h.2.2.2⟩
  else none

def zero (neg : Bool) : Binary64 :=
  ⟨neg, 0, -1074, by decide, by decide, by decide, .inr rfl⟩

instance : Inhabited Binary64 := ⟨zero false⟩

def isZero (x : Binary64) : Bool := x.man == 0

/-- The quotient rounded to the nearest integer, a half to the even one. -/
def roundQuotient (num den : Nat) : Nat :=
  let q := num / den
  let r := num % den
  if 2 * r < den then q else if den < 2 * r then q + 1 else q + q % 2

/-- Numerator and denominator of `num / den / 2 ^ exp`. -/
def scaled (num den : Nat) (exp : Int) : Nat × Nat :=
  if 0 ≤ exp then (num, den * Nat.pow 2 exp.toNat) else (num * Nat.pow 2 (-exp).toNat, den)

/-- The exponent that gives `num / den` a significand of `precision` bits, no less than `least`. -/
def exponentFor (precision : Nat) (least : Int) (num den : Nat) : Int :=
  let e := (num.log2 : Int) - den.log2 - (precision - 1 : Nat)
  let (n, d) := scaled num den e
  max least (if n / d < Nat.pow 2 (precision - 1) then e - 1 else e)

/-- `num / den` rounded to a significand of `precision` bits, with its exponent. -/
def roundTo (precision : Nat) (least : Int) (num den : Nat) : Nat × Int :=
  let e := exponentFor precision least num den
  let (n, d) := scaled num den e
  let man := roundQuotient n d
  if man = Nat.pow 2 precision then (Nat.pow 2 (precision - 1), e + 1) else (man, e)

/-- The double nearest to `± num / den`; none when that lies beyond the largest one. -/
def ofRatio? (neg : Bool) (num den : Nat) : Option Binary64 :=
  if num = 0 then some (zero neg)
  else
    let (man, exp) := roundTo 53 (-1074) num den
    mk? neg man exp

def ofInt? (n : Int) : Option Binary64 := ofRatio? (n < 0) n.natAbs 1

/-- The absolute value as a fraction. -/
def ratio (x : Binary64) : Nat × Nat :=
  if 0 ≤ x.exp then (x.man * Nat.pow 2 x.exp.toNat, 1) else (x.man, Nat.pow 2 (-x.exp).toNat)

def mul? (x y : Binary64) : Option Binary64 :=
  ofRatio? (x.neg ^^ y.neg) (x.ratio.1 * y.ratio.1) (x.ratio.2 * y.ratio.2)

/-- The rounded quotient; none for a zero divisor. -/
def div? (x y : Binary64) : Option Binary64 :=
  if y.isZero then none
  else ofRatio? (x.neg ^^ y.neg) (x.ratio.1 * y.ratio.2) (x.ratio.2 * y.ratio.1)

/-- Equal as numbers: the two zeros are. -/
def same (x y : Binary64) : Bool := (x.isZero && y.isZero) || x == y

/-- The integer part. -/
def trunc (x : Binary64) : Int :=
  let n : Int := (x.ratio.1 / x.ratio.2 : Nat)
  if x.neg then -n else n

/-- The value rounded to single precision; none when that overflows. -/
def toSingle? (x : Binary64) : Option Binary64 :=
  if x.isZero then some x
  else
    let (man, exp) := roundTo 24 (-149) x.ratio.1 x.ratio.2
    if 104 < exp then none
    else if 0 ≤ exp then ofRatio? x.neg (man * Nat.pow 2 exp.toNat) 1
    else ofRatio? x.neg man (Nat.pow 2 (-exp).toNat)

theorem same_refl (x : Binary64) : x.same x = true := by simp [same]

end Binary64

end RelQuery
