import RelQuery.Document.Basic

/-!
# Drafts

What a JSON text says, before it is known which parts of it are wanted. A text that breaks off or
goes wrong is kept up to that place, and a part that has the form of a value but no meaning (a
number out of range, half a surrogate pair, too deep a nesting) matters only to those who ask for
it.
-/

namespace RelQuery

inductive Draft
  | null
  | bool (b : Bool)
  /-- A numeral, with its value if that is in range. -/
  | num (n : Option Number)
  /-- A quoted text, with its characters if all its escapes name one. -/
  | str (s : Option String)
  /-- Items, and whether brackets are nested too deep here. -/
  | arr (deep : Bool) (items : List Draft)
  | obj (deep : Bool) (fields : List (Option String × Draft))
  /-- The text goes wrong here. -/
  | cut
  deriving Inhabited

namespace Draft

mutual

/-- Whether the text does not go wrong in this part. -/
def whole : Draft → Bool
  | .cut => false
  | .arr _ items => wholeItems items
  | .obj _ fields => wholeFields fields
  | _ => true

def wholeItems : List Draft → Bool
  | [] => true
  | d :: ds => whole d && wholeItems ds

def wholeFields : List (Option String × Draft) → Bool
  | [] => true
  | (_, d) :: fs => whole d && wholeFields fs

end

mutual

/-- The document a draft stands for. Of a repeated key the last value counts. -/
def document? : Draft → Option Document
  | .null => some .null
  | .bool b => some (.bool b)
  | .num n => n.map .num
  | .str s => s.map .str
  | .arr deep items => if deep then none else (documents? items).map .arr
  | .obj deep fields => if deep then none else (fields? fields).map (.obj ∘ Fields.ofList)
  | .cut => none

def documents? : List Draft → Option (List Document)
  | [] => some []
  | d :: ds => do return (← document? d) :: (← documents? ds)

def fields? : List (Option String × Draft) → Option (List (String × Document))
  | [] => some []
  | (k, d) :: fs => do
    let k ← k
    return (k, ← document? d) :: (← fields? fs)

end

mutual

def ofDocument : Document → Draft
  | .null => .null
  | .bool b => .bool b
  | .num n => .num (some n)
  | .str s => .str (some s)
  | .arr items => .arr false (ofItems items)
  | .obj fields => .obj false (ofFields fields)

def ofItems : List Document → List Draft
  | [] => []
  | d :: ds => ofDocument d :: ofItems ds

def ofFields : List (String × Document) → List (Option String × Draft)
  | [] => []
  | (k, d) :: fs => (some k, ofDocument d) :: ofFields fs

end

end Draft

end RelQuery
