import RelQuery.Document.Basic

/-!
# Printing documents

The compact text of a document, which also names it in messages, and the indented one.
-/

namespace RelQuery.Document

def hexDigit (n : Nat) : Char := (Nat.digitChar n)

/-- A character inside a quoted text: control characters are escaped, all others stand as they
are. -/
def escapeChar (c : Char) : List Char :=
  if c = '"' then ['\\', '"']
  else if c = '\\' then ['\\', '\\']
  else if c = '\n' then ['\\', 'n']
  else if c = '\r' then ['\\', 'r']
  else if c = '\t' then ['\\', 't']
  else if c.toNat = 8 then ['\\', 'b']
  else if c.toNat = 12 then ['\\', 'f']
  else if c.toNat < 0x20 then
    ['\\', 'u', '0', '0', hexDigit (c.toNat / 16), hexDigit (c.toNat % 16)]
  else [c]

def quoted (s : String) : String := .ofList ('"' :: s.toList.flatMap escapeChar ++ ['"'])

mutual

/-- The text without any spaces. -/
def compact : Document → String
  | .null => "null"
  | .bool b => if b then "true" else "false"
  | .num n => n.text
  | .str s => quoted s
  | .arr items => "[" ++ ",".intercalate (compactItems items) ++ "]"
  | .obj fields => "\x7b" ++ ",".intercalate (compactFields fields) ++ "\x7d"

def compactItems : List Document → List String
  | [] => []
  | d :: ds => compact d :: compactItems ds

def compactFields : List (String × Document) → List String
  | [] => []
  | (k, d) :: fs => (quoted k ++ ":" ++ compact d) :: compactFields fs

end

/-- Parts between brackets, one a line, two spaces deeper than `depth`. -/
def block (depth : Nat) (opening closing : String) (parts : List String) : String :=
  let pad (n : Nat) : String := .ofList (List.replicate (2 * n) ' ')
  if parts.isEmpty then opening ++ closing
  else
    opening ++ "\n" ++ ",\n".intercalate (parts.map (pad (depth + 1) ++ ·)) ++ "\n" ++ pad depth ++
      closing

mutual

/-- The text with every item and field on a line of its own, inside `depth` brackets. -/
def indented (depth : Nat) : Document → String
  | .arr items => block depth "[" "]" (indentedItems (depth + 1) items)
  | .obj fields => block depth "\x7b" "\x7d" (indentedFields (depth + 1) fields)
  | d => compact d

def indentedItems (depth : Nat) : List Document → List String
  | [] => []
  | d :: ds => indented depth d :: indentedItems depth ds

def indentedFields (depth : Nat) : List (String × Document) → List String
  | [] => []
  | (k, d) :: fs => (quoted k ++ ": " ++ indented depth d) :: indentedFields depth fs

end

def pretty (d : Document) : String := indented 0 d

/-- The values without later ones of the same text. -/
def distinctByText (ds : List Document) : List Document :=
  ds.foldl (fun acc d => if acc.any (·.compact == d.compact) then acc else acc ++ [d]) []

end RelQuery.Document
