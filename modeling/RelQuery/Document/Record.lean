import RelQuery.Document.Draft
import RelQuery.Error

/-!
# Records

Reads values of known form out of drafts, in the order of the text, so that of several faults the
first one counts. Of a record unknown keys are passed over, a known key may stand once, and all of
it may also be written as the list of its values.
-/

namespace RelQuery

/-- The outcome of reading a part of a draft. -/
abbrev Read (α : Type) := Except LoadError α

namespace Draft

def text : Draft → Read String
  | .str (some s) => .ok s
  | _ => .error .unreadable

def flag : Draft → Read Bool
  | .bool b => .ok b
  | _ => .error .unreadable

/-- Any document. -/
def value (d : Draft) : Read Document :=
  match d.document? with
  | some v => .ok v
  | none => .error .unreadable

/-- The fields of any object. -/
def object (d : Draft) : Read Fields :=
  match d.document? with
  | some (.obj fields) => .ok fields
  | _ => .error .unreadable

def natural : Draft → Read Nat
  | .num (some n) => match n.toNat? with
    | some n => .ok n
    | none => .error .unreadable
  | _ => .error .unreadable

/-- `null`, or a value. -/
def optional {α : Type} (read : Draft → Read α) : Draft → Read (Option α)
  | .null => .ok none
  | d => some <$> read d

def list {α : Type} (read : Draft → Read α) : Draft → Read (List α)
  | .arr false items => items.mapM read
  | _ => .error .unreadable

/-- Entries with each key once. Of a repeated key the last value counts, at the first place. -/
def lastOfEach {α : Type} (entries : List (String × α)) : List (String × α) :=
  (entries.map (·.1)).eraseDups.filterMap fun key => (entries.reverse.lookup key).map (key, ·)

/-- An object whose keys are free, with values of one form. -/
def table {α : Type} (read : Draft → Read α) : Draft → Read (List (String × α))
  | .obj false fields => lastOfEach <$> fields.mapM fun
    | (some key, d) => do return (key, ← read d)
    | (none, _) => .error .unreadable
  | _ => .error .unreadable

/-- One of some names, alone or as the only key of an object with `null`. -/
def choice {α : Type} (ofName? : String → Option α) (d : Draft) : Read α :=
  let name? := match d with
    | .str s => s
    | .obj false [(key, .null)] => key
    | _ => none
  match name?.bind ofName? with
  | some a => .ok a
  | none => .error .unreadable

/-- One entry of a record: `step` takes in a known key that has not been seen. -/
def entry {σ : Type} (keys : List String) (step : σ → String → Draft → Read σ)
    (acc : σ × List String) (field : Option String × Draft) : Read (σ × List String) :=
  match field.1 with
  | none => .error .unreadable
  | some key =>
    if keys.contains key then
      if acc.2.contains key then .error .unreadable
      else do return (← step acc.1 key field.2, acc.2 ++ [key])
    else if field.2.whole then .ok acc
    else .error .unreadable

/-- A record from its entries in order, starting from its defaults; `needed` keys must be there. -/
def record {σ : Type} (keys needed : List String) (step : σ → String → Draft → Read σ)
    (defaults : σ) (d : Draft) : Read σ := do
  let fields ← match d with
    | .obj false fields => .ok fields
    | .arr false items =>
      .ok ((keys.map some).zip items ++ (items.drop keys.length).map fun _ => (none, .cut))
    | _ => .error .unreadable
  let (value, seen) ← fields.foldlM (entry keys step) (defaults, [])
  if needed.all seen.contains then return value else .error .unreadable

/-- Splits a record into the value of its key `tag`, the first one of a list, and the rest. -/
def tagged (tag : String) : Draft → Read (Draft × Draft)
  | .obj false fields =>
    match fields.lookup (some tag) with
    | some d => .ok (d, .obj false (fields.filter (·.1 != some tag)))
    | none => .error .unreadable
  | .arr false (d :: items) => .ok (d, .arr false items)
  | _ => .error .unreadable

end Draft

end RelQuery
