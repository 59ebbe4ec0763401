import RelQuery.Document.Basic
import RelQuery.Error

/-!
# Selections

The fields a client asks for, their arguments and the fragments they spread. `ExecutionInfo.expand`
puts fragments in place and merges fields with one response key.
-/

namespace RelQuery

/-- An argument value, possibly with variables in it. -/
inductive Argument
  | var (name : String)
  | scalar (value : Document)
  | list (items : List Argument)
  | object (fields : List (String × Argument))
  deriving Inhabited

namespace Argument

mutual

/-- The value with variables put in. An unbound variable has none; in a list it becomes `null`, in
an object its key is dropped. -/
def resolve? (vars : Fields) : Argument → Option Document
  | .var name => vars.lookup name
  | .scalar value => some value
  | .list items => some (.arr (resolveItems vars items))
  | .object fields => some (.obj (resolveFields vars fields))

def resolveItems (vars : Fields) : List Argument → List Document
  | [] => []
  | a :: as => (resolve? vars a).getD .null :: resolveItems vars as

def resolveFields (vars : Fields) : List (String × Argument) → Fields
  | [] => []
  | (k, a) :: fs =>
    match resolve? vars a with
    | some d => (k, d) :: resolveFields vars fs
    | none => resolveFields vars fs

end

end Argument

inductive Selection
  | field (name : String) (label : Option String) (arguments : List (String × Argument))
      (selections : List Selection)
  | spread (fragment : String)
  | inline (typeCondition : Option String) (selections : List Selection)
  deriving Inhabited

/-- A selected field. -/
structure Field where
  name : String
  /-- The name the client gives it in the response. -/
  label : Option String := none
  arguments : List (String × Argument) := []
  selections : List Selection := []
  deriving Inhabited

namespace Field

def responseKey (f : Field) : String := f.label.getD f.name

/-- The value of an argument with variables put in. -/
def argument? (f : Field) (name : String) (vars : Fields) : Option Document :=
  (f.arguments.lookup name).bind (·.resolve? vars)

def toSelection (f : Field) : Selection := .field f.name f.label f.arguments f.selections

/-- The fields with one more; a field with the same response key takes over its selections. -/
def addTo (fs : List Field) (f : Field) : List Field :=
  match fs with
  | [] => [f]
  | g :: gs =>
    if g.responseKey = f.responseKey then { g with selections := g.selections ++ f.selections } :: gs
    else g :: addTo gs f

end Field

structure Fragment where
  name : String
  typeCondition : Option String := none
  selections : List Selection
  deriving Inhabited

/-- What an operation brings along. -/
structure ExecutionInfo where
  /-- Fragments by the name they are spread by. -/
  fragments : List (String × Fragment) := []
  /-- The values of variables. -/
  bindings : Fields := []
  deriving Inhabited

namespace Selection

mutual

/-- The fields that a selection stands for, in order, given those of each fragment it spreads. -/
def fieldsWith (spread : String → Except PlanError (List Field)) :
    Selection → Except PlanError (List Field)
  | .field name label arguments selections => .ok [⟨name, label, arguments, selections⟩]
  | .inline _ selections => fieldsWithAll spread selections
  | .spread fragment => spread fragment

def fieldsWithAll (spread : String → Except PlanError (List Field)) :
    List Selection → Except PlanError (List Field)
  | [] => .ok []
  | s :: ss => do
    let fields ← fieldsWith spread s
    return fields ++ (← fieldsWithAll spread ss)

end

mutual

/-- The number of fields in a selection, those in selections of fields included. -/
def size : Selection → Nat
  | .field _ _ _ selections => 1 + sizeAll selections
  | .spread _ => 0
  | .inline _ selections => sizeAll selections

def sizeAll : List Selection → Nat
  | [] => 0
  | s :: ss => size s + sizeAll ss

end

end Selection

namespace ExecutionInfo

/-- The fields of a selection set with fragments in place, inside the fragments named in
`visiting`. No chain of spreads may meet a fragment twice, so it is no longer than `depth`, the
number of fragments. -/
def flatten (info : ExecutionInfo) :
    Nat → List String → List Selection → Except PlanError (List Field)
  | depth, visiting, selections =>
    Selection.fieldsWithAll (fun name =>
      match info.fragments.lookup name with
      | none => malformed (.unknownFragment name)
      | some fragment =>
        if visiting.contains fragment.name then malformed (.cyclicFragment name)
        else
          match depth with
          | 0 => malformed (.cyclicFragment name)
          | depth + 1 => flatten info depth (fragment.name :: visiting) fragment.selections)
      selections

/-- The fields of a selection set, one for each response key. -/
def expand (info : ExecutionInfo) (selections : List Selection) :
    Except PlanError (List Field) := do
  return (← info.flatten info.fragments.length [] selections).foldl Field.addTo []

/-- No field stands deeper in a selection set than there are fields in it and in all fragments,
unless a fragment contains itself. -/
def depthBound (info : ExecutionInfo) (selections : List Selection) : Nat :=
  info.fragments.foldl (fun n f => n + Selection.sizeAll f.2.selections)
    (Selection.sizeAll selections + 1)

end ExecutionInfo

end RelQuery
