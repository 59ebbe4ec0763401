import RelQuery.Text.CaseTable

/-!
# Letter case

Upper and lower case of characters and texts by Unicode's full mappings, each character on its
own: one character may become several (`ß` becomes `SS`).
-/

namespace RelQuery.Text

/-- The image of `c` under a case mapping given by its expansions and its runs. -/
def mapCase (expansions : List (Nat × List Nat)) (runs : List CaseRun) (c : Char) : List Char :=
  match expansions.lookup c.toNat with
  | some ns => ns.map Char.ofNat
  | none =>
    match runs.find? (·.covers c.toNat) with
    | some r => [Char.ofNat (c.toNat + r.shift).toNat]
    | none => [c]

def upper (c : Char) : List Char :=
  if c.toNat < 0x80 then [c.toUpper] else mapCase upperExpansions upperRuns c

def lower (c : Char) : List Char :=
  if c.toNat < 0x80 then [c.toLower] else mapCase lowerExpansions lowerRuns c

/-- Unicode's `Uppercase` property. -/
def isUppercase (c : Char) : Bool :=
  if c.toNat < 0x80 then c.isUpper else uppercaseRuns.any (·.covers c.toNat)

def toUpper (s : String) : String := .ofList (s.toList.flatMap upper)

/-- Every character in lower case; a final sigma has no form of its own here. -/
def toLower (s : String) : String := .ofList (s.toList.flatMap lower)

end RelQuery.Text
