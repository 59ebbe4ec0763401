import RelQuery.Document.Draft

/-!
# Reading documents

Reads JSON text. A numeral without point and exponent is an integer if it fits 64 bits; every other
one is a double, computed from at most the digits that fit an unsigned integer of 64 bits by one
rounded product or quotient for each power of ten.
-/

namespace RelQuery

namespace Document

open Numeral

/-- Brackets may be nested this deep. -/
def maxDepth : Nat := 127

def isSpace (c : Char) : Bool := c = ' ' || c = '\n' || c = '\t' || c = '\r'

def skipSpace (cs : List Char) : List Char := cs.dropWhile isSpace

/-- Whether a digit more takes the significand beyond 64 bits. -/
def overflows (significand digit : Nat) : Bool := 0x10000000000000000 ≤ significand * 10 + digit

/-- Digits before the point: the significand, and how many digits did not fit. -/
def gatherWhole (significand : Nat) : List Nat → Nat × Nat
  | [] => (significand, 0)
  | d :: ds =>
    if overflows significand d then (significand, ds.length + 1)
    else gatherWhole (significand * 10 + d) ds

/-- Digits after the point: the significand, and how many digits it took in. -/
def gatherFraction (significand taken : Nat) : List Nat → Nat × Nat
  | [] => (significand, taken)
  | d :: ds =>
    if overflows significand d then (significand, taken)
    else gatherFraction (significand * 10 + d) (taken + 1) ds

/-- The largest exponent of a power of ten among the doubles. -/
def maxPower : Nat := 308

def powerOfTen? (n : Nat) : Option Binary64 := Binary64.ofRatio? false (Nat.pow 10 n) 1

/-- `x / 10 ^ n`, after `steps` quotients by the largest power. -/
def divideIn? : Nat → Binary64 → Nat → Option Binary64
  | 0, x, n => do x.div? (← powerOfTen? n)
  | steps + 1, x, n =>
    if x.isZero then some x
    else do
      let y ← x.div? (← powerOfTen? maxPower)
      divideIn? steps y (n - maxPower)

/-- `x / 10 ^ n`, by steps of at most `maxPower` places. -/
def scaleDown? (x : Binary64) (n : Nat) : Option Binary64 := divideIn? ((n - 1) / maxPower) x n

/-- The double `± significand · 10 ^ exp`; none when it is out of range. -/
def assemble? (neg : Bool) (significand : Nat) (exp : Int) : Option Binary64 := do
  let x ← Binary64.ofRatio? neg significand 1
  if exp < 0 then scaleDown? x exp.natAbs
  else if exp ≤ maxPower then x.mul? (← powerOfTen? exp.toNat)
  else if x.isZero then some x
  else none

/-- The exponent of a numeral; one past 31 bits counts only by its sign. -/
def exponentValue (neg : Bool) (ds : List Nat) : Int :=
  let n : Int := min (ofDigits ds) 0x100000000
  if neg then -n else n

/-- The value of a numeral from its sign, its digits before and after the point and its exponent. -/
def numberOf (neg : Bool) (whole : List Nat) (fraction : Option (List Nat)) (exp : Option Int) :
    Option Number :=
  let (significand, dropped) := gatherWhole 0 whole
  if fraction.isNone && exp.isNone && dropped == 0 then
    if !neg then Number.ofInt? significand
    else if 0 < significand && significand ≤ Bigint.bound then Number.ofInt? (-significand)
    else (Binary64.ofRatio? true significand 1).map .float
  else
    let (significand, taken) := gatherFraction significand 0 (fraction.getD [])
    (assemble? neg significand (exp.getD 0 + dropped - taken)).map .float

/-- A point and its digits, if there is one; none if the digits are missing. -/
def scanFraction? : List Char → Option (Option (List Nat) × List Char)
  | '.' :: cs =>
    match digits cs with
    | ([], _) => none
    | (ds, rest) => some (some ds, rest)
  | cs => some (none, cs)

/-- `e`, a sign and digits, if there is an `e`; none if the digits are missing. -/
def scanExponent? (cs : List Char) : Option (Option Int × List Char) :=
  match cs with
  | c :: rest =>
    if c = 'e' ∨ c = 'E' then
      let (neg, rest) := sign rest
      match digits rest with
      | ([], _) => none
      | (ds, rest) => some (some (exponentValue neg ds), rest)
    else some (none, cs)
  | [] => some (none, [])

/-- A numeral and what follows it; none if there is none. No digit may follow a leading zero. -/
def scanNumber? (cs : List Char) : Option (Option Number × List Char) := do
  let (neg, cs) := match cs with
    | '-' :: rest => (true, rest)
    | rest => (false, rest)
  let (whole, cs) := digits cs
  guard (!whole.isEmpty && (whole.head? != some 0 || whole.length == 1))
  let (fraction, cs) ← scanFraction? cs
  let (exp, cs) ← scanExponent? cs
  return (numberOf neg whole fraction exp, cs)

def hexValue? (c : Char) : Option Nat :=
  if '0' ≤ c ∧ c ≤ '9' then some (c.toNat - '0'.toNat)
  else if 'a' ≤ c ∧ c ≤ 'f' then some (c.toNat - 'a'.toNat + 10)
  else if 'A' ≤ c ∧ c ≤ 'F' then some (c.toNat - 'A'.toNat + 10)
  else none

def hex4? (a b c d : Char) : Option Nat := do
  return (((← hexValue? a) * 16 + (← hexValue? b)) * 16 + (← hexValue? c)) * 16 + (← hexValue? d)

def isHighSurrogate (n : Nat) : Bool := 0xD800 ≤ n && n < 0xDC00

def isLowSurrogate (n : Nat) : Bool := 0xDC00 ≤ n && n < 0xE000

/-- The character after a backslash, for escapes of one character. -/
def shortEscape? (c : Char) : Option Char :=
  if c = '"' ∨ c = '\\' ∨ c = '/' then some c
  else if c = 'b' then some '\x08'
  else if c = 'f' then some '\x0c'
  else if c = 'n' then some '\n'
  else if c = 'r' then some '\r'
  else if c = 't' then some '\t'
  else none

/-- A unit of a quoted text: a character, half of a surrogate pair, or an end to the text. -/
inductive TextUnit
  | char (c : Char)
  | half (n : Nat)
  | closing
  deriving DecidableEq

/-- The first unit of a quoted text and the rest; none if the text goes wrong here. -/
def scanUnit? : List Char → Option (TextUnit × List Char)
  | [] => none
  | '"' :: cs => some (.closing, cs)
  | '\\' :: 'u' :: a :: b :: c :: d :: cs => do
    let n ← hex4? a b c d
    return (if isHighSurrogate n || isLowSurrogate n then .half n else .char (Char.ofNat n), cs)
  | '\\' :: c :: cs => do return (.char (← shortEscape? c), cs)
  | c :: cs => if c.toNat < 0x20 then none else some (.char c, cs)

/-- The units of a quoted text after its opening quote, and the rest. -/
def scanUnits? : Nat → List Char → Option (List TextUnit × List Char)
  | 0, _ => none
  | fuel + 1, cs => do
    match ← scanUnit? cs with
    | (.closing, rest) => return ([], rest)
    | (u, rest) =>
      let (us, rest) ← scanUnits? fuel rest
      return (u :: us, rest)

/-- The characters of a text; none if half of a surrogate pair stands alone. -/
def joinUnits? : List TextUnit → Option (List Char)
  | [] => some []
  | .char c :: us => (joinUnits? us).map (c :: ·)
  | .half m :: .half n :: us =>
    if isHighSurrogate m && isLowSurrogate n then
      (joinUnits? us).map (Char.ofNat (0x10000 + (m - 0xD800) * 0x400 + (n - 0xDC00)) :: ·)
    else none
  | _ => none

/-- A quoted text after its opening quote. -/
def scanText? (cs : List Char) : Option (Option String × List Char) := do
  let (us, rest) ← scanUnits? (cs.length + 1) cs
  return ((joinUnits? us).map String.ofList, rest)

/-- The words `null`, `true` and `false`. -/
def scanWord? (cs : List Char) : Option (Draft × List Char) :=
  let word (w : String) (d : Draft) : Option (Draft × List Char) :=
    if w.toList.isPrefixOf cs then some (d, cs.drop w.toList.length) else none
  word "null" .null <|> word "true" (.bool true) <|> word "false" (.bool false)

/-- A value that is no bracket. -/
def scanScalar? : List Char → Option (Draft × List Char)
  | '"' :: cs => (scanText? cs).map fun (s, rest) => (.str s, rest)
  | cs => scanWord? cs <|> (scanNumber? cs).map fun (n, rest) => (.num n, rest)

mutual

/-- The value at the head of a text inside `depth` brackets, and the rest unless the text went
wrong. Every step takes a character or goes down to one that does. -/
def readValue (depth : Nat) : Nat → List Char → Draft × Option (List Char)
  | 0, _ => (.cut, none)
  | fuel + 1, cs =>
    match skipSpace cs with
    | '[' :: cs =>
      let (items, rest) := match skipSpace cs with
        | ']' :: rest => ([], some rest)
        | cs => readItems (depth + 1) fuel cs
      (.arr (maxDepth < depth + 1) items, rest)
    | '\x7b' :: cs =>
      let (fields, rest) := match skipSpace cs with
        | '\x7d' :: rest => ([], some rest)
        | cs => readFields (depth + 1) fuel cs
      (.obj (maxDepth < depth + 1) fields, rest)
    | cs =>
      match scanScalar? cs with
      | some (d, rest) => (d, some rest)
      | none => (.cut, none)

def readItems (depth : Nat) : Nat → List Char → List Draft × Option (List Char)
  | 0, _ => ([.cut], none)
  | fuel + 1, cs =>
    match readValue depth fuel cs with
    | (d, none) => ([d], none)
    | (d, some rest) =>
      match skipSpace rest with
      | ',' :: rest => let (ds, rest) := readItems depth fuel rest; (d :: ds, rest)
      | ']' :: rest => ([d], some rest)
      | _ => ([d, .cut], none)

def readFields (depth : Nat) :
    Nat → List Char → List (Option String × Draft) × Option (List Char)
  | 0, _ => ([(none, .cut)], none)
  | fuel + 1, cs =>
    match skipSpace cs with
    | '"' :: cs =>
      match scanText? cs with
      | none => ([(none, .cut)], none)
      | some (key, rest) =>
        match skipSpace rest with
        | ':' :: rest =>
          match readValue depth fuel rest with
          | (d, none) => ([(key, d)], none)
          | (d, some rest) =>
            match skipSpace rest with
            | ',' :: rest =>
              let (fs, rest) := readFields depth fuel rest
              ((key, d) :: fs, rest)
            | '\x7d' :: rest => ([(key, d)], some rest)
            | _ => ([(key, d), (none, .cut)], none)
        | _ => ([(key, .cut)], none)
    | _ => ([(none, .cut)], none)

end

end Document

/-- The value at the head of a text, and whether nothing but spaces follows it. -/
def Draft.read (text : String) : Draft × Bool :=
  let cs := text.toList
  match Document.readValue 0 (2 * cs.length + 2) cs with
  | (d, some rest) => (d, (Document.skipSpace rest).isEmpty)
  | (d, none) => (d, false)

/-- The document a text stands for. -/
def Document.read? (text : String) : Option Document :=
  match Draft.read text with
  | (d, true) => d.document?
  | (_, false) => none

end RelQuery
