import RelQuery.Text.Case

/-!
# Identifiers

The spellings of a name: `snake_case` and `camelCase`, its first letter raised or lowered, and the
English plural of its last word.
-/

namespace RelQuery.Text

/-- An underscore raises the next character, unless nothing but underscores precedes it. -/
def camelChars (started raise : Bool) : List Char → List Char
  | [] => []
  | c :: cs =>
    if c = '_' then camelChars started started cs
    else (if raise then upper c else [c]) ++ camelChars true false cs

/-- `created_at` as `createdAt`. -/
def camel (s : String) : String := .ofList (camelChars false false s.toList)

def snakeChar (c : Char) : List Char := if isUppercase c then '_' :: lower c else [c]

/-- `OrderItems` as `order_items`. -/
def snake (s : String) : String :=
  match s.toList with
  | [] => ""
  | c :: cs => .ofList ((if isUppercase c then lower c else [c]) ++ cs.flatMap snakeChar)

def lowerFirst (s : String) : String :=
  match s.toList with
  | [] => ""
  | c :: cs => .ofList (lower c ++ cs)

def upperFirst (s : String) : String :=
  match s.toList with
  | [] => ""
  | c :: cs => .ofList (upper c ++ cs)

def isVowel (c : Char) : Bool := "aeiou".toList.contains c

/-- The endings, read backwards, after which a plural takes `es`. -/
def sibilants : List (List Char) := [['s'], ['x'], ['z'], ['h', 'c'], ['h', 's']]

/-- `category` as `categories`, `address` as `addresses`, `order` as `orders`. -/
def plural (s : String) : String :=
  let cs := s.toList
  let reversed := (cs.flatMap lower).reverse
  if reversed.head? = some 'y' && !(reversed[1]?.any isVowel) then
    .ofList (cs.dropLast ++ "ies".toList)
  else if sibilants.any (·.isPrefixOf reversed) then s ++ "es"
  else s ++ "s"

end RelQuery.Text
