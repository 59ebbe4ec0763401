import RelQuery.Decimal.Binary64

/-!
# Numerals

Reading integers and decimals from text.
-/

namespace RelQuery.Numeral

/-- The value of a decimal digit. -/
def digit? (c : Char) : Option Nat :=
  if '0' ≤ c ∧ c ≤ '9' then some (c.toNat - '0'.toNat) else none

/-- The leading digits and what follows them. -/
def digits : List Char → List Nat × List Char
  | [] => ([], [])
  | c :: cs =>
    match digit? c with
    | some d => let (ds, rest) := digits cs; (d :: ds, rest)
    | none => ([], c :: cs)

def ofDigits (ds : List Nat) : Nat := ds.foldl (fun n d => 10 * n + d) 0

/-- A leading sign, if any; `true` for minus. -/
def sign : List Char → Bool × List Char
  | '+' :: cs => (false, cs)
  | '-' :: cs => (true, cs)
  | cs => (false, cs)

/-- An optional sign and one or more digits. -/
def int? (cs : List Char) : Option Int :=
  let (neg, cs) := sign cs
  match digits cs with
  | ([], _) => none
  | (ds, []) => some (if neg then -(ofDigits ds : Int) else ofDigits ds)
  | _ => none

/-- An optional plus and one or more digits. -/
def nat? (cs : List Char) : Option Nat :=
  match digits (if cs.head? = some '+' then cs.tail else cs) with
  | ([], _) => none
  | (ds, []) => some (ofDigits ds)
  | _ => none

/-- The exponent of a decimal: nothing, or `e` with an integer. -/
def exponent? : List Char → Option Int
  | [] => some 0
  | c :: cs => if c = 'e' ∨ c = 'E' then int? cs else none

/-- Digits with an optional point among or around them, then an optional exponent: significand and
power of ten. -/
def unsignedDecimal? (cs : List Char) : Option (Nat × Int) :=
  let (whole, cs) := digits cs
  let (fraction, cs) := match cs with
    | '.' :: rest => digits rest
    | rest => ([], rest)
  if whole.isEmpty && fraction.isEmpty then none
  else do
    let e ← exponent? cs
    return (ofDigits (whole ++ fraction), e - fraction.length)

/-- The double nearest to `± n · 10 ^ e`; none beyond the largest one. Exponents out of reach are
settled by the number of digits, without computing the power. -/
def nearest? (neg : Bool) (n : Nat) (e : Int) : Option Binary64 :=
  if n = 0 then some (.zero neg)
  else
    let size : Int := (Nat.toDigits 10 n).length
    if 309 < size + e then none
    else if size + e < -323 then some (.zero neg)
    else if 0 ≤ e then Binary64.ofRatio? neg (n * Nat.pow 10 e.toNat) 1
    else Binary64.ofRatio? neg n (Nat.pow 10 (-e).toNat)

/-- The finite double that a decimal numeral stands for. -/
def decimal? (cs : List Char) : Option Binary64 := do
  let (neg, cs) := sign cs
  let (n, e) ← unsignedDecimal? cs
  nearest? neg n e

end RelQuery.Numeral
