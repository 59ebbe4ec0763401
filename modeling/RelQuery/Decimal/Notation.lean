import RelQuery.Decimal.Shortest

/-!
# Decimal notation

How a decimal is spelled: digit by digit around the point, or with an exponent.
-/

namespace RelQuery.Decimal

/-- Digits of the decimal, the leading one first. -/
def digitChars (d : Decimal) : List Char := (toString d.digits).toList

/-- The exponent of the leading digit. -/
def lead (d : Decimal) : Int := d.exp + d.digitChars.length - 1

/-- All digits, zeros filled in up to the point; a fraction only if there is one. -/
def positional (d : Decimal) : String :=
  let ds := d.digitChars
  if 0 ≤ d.exp then .ofList (ds ++ List.replicate d.exp.toNat '0')
  else
    let places := (-d.exp).toNat
    if places < ds.length then
      .ofList (ds.take (ds.length - places) ++ '.' :: ds.drop (ds.length - places))
    else .ofList ('0' :: '.' :: (List.replicate (places - ds.length) '0' ++ ds))

/-- One digit before the point, then the exponent with its sign. -/
def scientific (d : Decimal) : String :=
  let ds := d.digitChars
  let fraction := ds.drop 1
  let e := d.lead
  .ofList (ds.take 1 ++ (if fraction.isEmpty then [] else '.' :: fraction)) ++ "e" ++
    (if e < 0 then toString e else "+" ++ toString e)

end RelQuery.Decimal

namespace RelQuery.Binary64

def sign (x : Binary64) : String := if x.neg then "-" else ""

/-- All digits and no exponent; integers without a point. Equally near decimals are rounded up. -/
def plainText (x : Binary64) : String :=
  x.sign ++ (Decimal.shortest .up x).positional

/-- Positional from `1e-5` to below `1e16`, with at least one decimal; scientific beyond. Of two
equally near decimals the even one is taken. -/
def jsonText (x : Binary64) : String :=
  let d := Decimal.shortest .even x
  x.sign ++
    if -5 ≤ d.lead ∧ d.lead ≤ 15 then
      if 0 ≤ d.exp then d.positional ++ ".0" else d.positional
    else d.scientific

end RelQuery.Binary64
