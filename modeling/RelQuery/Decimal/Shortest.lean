import RelQuery.Decimal.Binary64

/-!
# Shortest decimals

The decimal with the fewest digits among those that round to a given double, and of these the
nearest to it.
-/

namespace RelQuery

/-- The number `digits · 10 ^ exp`. -/
structure Decimal where
  digits : Nat
  exp : Int
  deriving DecidableEq, Inhabited, Repr

namespace Decimal

/-- Which of two equally near decimals is taken. -/
inductive Tie
  | even
  | up
  deriving DecidableEq, Repr

/-- The fraction `num / den` as the quotient of two products, scaled by `10 ^ -k`. -/
def scaled (num den : Nat) (k : Int) : Nat × Nat :=
  if 0 ≤ k then (num, den * Nat.pow 10 k.toNat) else (num * Nat.pow 10 (-k).toNat, den)

/-- The exponent of the leading digit of `num / den`. -/
def magnitude (num den : Nat) : Int :=
  let guess : Int := (((num.log2 : Int) - den.log2) * 30103).fdiv 100000
  let above (k : Int) : Bool := let (n, d) := scaled num den k; decide (d ≤ n)
  if above (guess + 1) then guess + 1
  else if above guess then guess
  else guess - 1

/-- The end of the interval of reals that round to `x`, in quarters of its last place. -/
structure Interval where
  /-- Lower end, value and upper end, over one denominator. -/
  low : Nat
  value : Nat
  high : Nat
  den : Nat
  closed : Bool

def Interval.contains (i : Interval) (num den : Nat) : Bool :=
  if i.closed then i.low * den ≤ num * i.den && num * i.den ≤ i.high * den
  else i.low * den < num * i.den && num * i.den < i.high * den

/-- The reals that round to `x`. The lower half gap is halved at a power of two. -/
def interval (x : Binary64) : Interval :=
  let gap := if x.man = 0x10000000000000 ∧ -1074 < x.exp then 1 else 2
  let unit := x.exp - 2
  let (u, den) := if 0 ≤ unit then (Nat.pow 2 unit.toNat, 1) else (1, Nat.pow 2 (-unit).toNat)
  ⟨(4 * x.man - gap) * u, 4 * x.man * u, (4 * x.man + 2) * u, den, x.man % 2 == 0⟩

/-- The numbers `n · 10 ^ k` as a fraction. -/
def fraction (n : Nat) (k : Int) : Nat × Nat :=
  if 0 ≤ k then (n * Nat.pow 10 k.toNat, 1) else (n, Nat.pow 10 (-k).toNat)

/-- On the grid of multiples of `10 ^ k`, the neighbour of the value that lies in the interval and
is nearest to the value. -/
def nearest? (tie : Tie) (i : Interval) (k : Int) : Option Nat :=
  let (num, den) := scaled i.value i.den k
  let below := num / den
  let rest := num % den
  let inside (n : Nat) : Bool := let (a, b) := fraction n k; i.contains a b
  match inside below, inside (below + 1) with
  | false, false => none
  | true, false => some below
  | false, true => some (below + 1)
  | true, true =>
    if 2 * rest < den then some below
    else if den < 2 * rest then some (below + 1)
    else match tie with
      | .even => some (below + below % 2)
      | .up => some (below + 1)

/-- The same number without trailing zeros among its digits. -/
def strip : Nat → Decimal → Decimal
  | 0, d => d
  | fuel + 1, d =>
    if d.digits ≠ 0 ∧ d.digits % 10 = 0 then strip fuel ⟨d.digits / 10, d.exp + 1⟩ else d

/-- Seventeen digits always read back, so the search ends. -/
def shortestFrom (tie : Tie) (i : Interval) (lead : Int) : Nat → Nat → Decimal
  | 0, _ => ⟨0, 0⟩
  | fuel + 1, count =>
    match nearest? tie i (lead - count + 1) with
    | some n => strip 20 ⟨n, lead - count + 1⟩
    | none => shortestFrom tie i lead fuel (count + 1)

/-- The shortest decimal that rounds to the absolute value of `x`. -/
def shortest (tie : Tie) (x : Binary64) : Decimal :=
  if x.isZero then ⟨0, 0⟩
  else shortestFrom tie (interval x) (magnitude x.ratio.1 x.ratio.2) 17 1

end Decimal

end RelQuery
