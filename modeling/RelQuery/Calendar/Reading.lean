import RelQuery.Calendar.Basic
import RelQuery.Text.Blank

/-!
# Reading timestamps

A timestamp is an RFC 3339 date and time, or a date alone, which stands for its midnight in UTC.
-/

namespace RelQuery.Calendar

open Numeral

/-- Exactly `n` digits. -/
def exactly? (n : Nat) (cs : List Char) : Option (Nat × List Char) :=
  let ds := (cs.take n).filterMap digit?
  if ds.length = n then some (ofDigits ds, cs.drop n) else none

/-- From one to `n` digits. -/
def upTo? (n : Nat) (cs : List Char) : Option (Nat × List Char) :=
  match (digits (cs.take n)).1 with
  | [] => none
  | ds => some (ofDigits ds, cs.drop ds.length)

/-- The text after the character `c`. -/
def after? (c : Char) : List Char → Option (List Char)
  | d :: cs => if c = d then some cs else none
  | [] => none

/-- A fraction of a second in nanoseconds; digits past nine are dropped. -/
def fraction? : List Char → Option (Nat × List Char)
  | '.' :: cs =>
    match digits cs with
    | ([], _) => none
    | (ds, rest) => some (ofDigits ((ds ++ List.replicate 9 0).take 9), rest)
  | cs => some (0, cs)

/-- `Z` or a signed `hh:mm` below a day, in minutes. -/
def offset? : List Char → Option (Int × List Char)
  | [] => none
  | c :: cs =>
    if c = 'Z' ∨ c = 'z' then some (0, cs)
    else if c = '+' ∨ c = '-' ∨ c = '\u2212' then do
      let (hours, cs) ← exactly? 2 cs
      let cs ← after? ':' cs
      let (minutes, cs) ← exactly? 2 cs
      if hours < 24 ∧ minutes < 60 then
        let n : Int := (hours * 60 + minutes : Nat)
        return (if c = '+' then n else -n, cs)
      else none
    else none

/-- RFC 3339, with `T`, `t` or a space between date and time. -/
def timestamp? (cs : List Char) : Option Timestamp := do
  let (year, cs) ← exactly? 4 cs
  let cs ← after? '-' cs
  let (month, cs) ← exactly? 2 cs
  let cs ← after? '-' cs
  let (day, cs) ← exactly? 2 cs
  let cs ← match cs with
    | c :: rest => if c = 'T' ∨ c = 't' ∨ c = ' ' then some rest else none
    | [] => none
  let (hour, cs) ← exactly? 2 cs
  let cs ← after? ':' cs
  let (minute, cs) ← exactly? 2 cs
  let cs ← after? ':' cs
  let (second, cs) ← exactly? 2 cs
  let (nano, cs) ← fraction? cs
  let (offset, cs) ← offset? cs
  let date ← Date.mk? year month day
  let clock ← Clock.mk? hour minute second nano
  if cs.isEmpty then some ⟨date, clock, offset⟩ else none

/-- A year: one to four digits, or a sign and any number of them. -/
def year? (cs : List Char) : Option (Int × List Char) :=
  match cs with
  | '-' :: cs => (upTo? cs.length cs).map fun (n, rest) => (-(n : Int), rest)
  | '+' :: cs => (upTo? cs.length cs).map fun (n, rest) => ((n : Int), rest)
  | cs => (upTo? 4 cs).map fun (n, rest) => ((n : Int), rest)

/-- A date whose month and day may be unpadded; blanks may precede each number. -/
def date? (cs : List Char) : Option Date := do
  let (year, cs) ← year? (Text.trimStart cs)
  let cs ← after? '-' cs
  let (month, cs) ← upTo? 2 (Text.trimStart cs)
  let cs ← after? '-' cs
  let (day, cs) ← upTo? 2 (Text.trimStart cs)
  let date ← Date.mk? year month day
  if cs.isEmpty then some date else none

/-- The timestamp a text stands for, as RFC 3339 text. -/
def normalize? (s : String) : Option String :=
  match timestamp? s.toList with
  | some t => some t.text
  | none => (date? s.toList).map fun d => Timestamp.text ⟨d, .midnight, 0⟩

end RelQuery.Calendar
