import RelQuery.Decimal.Notation
import RelQuery.Decimal.Numeral

/-!
# Documents

JSON values. The keys of an object keep their order, integers and doubles are kept apart, and
`Document.same` compares values: `0.0` equals `-0.0`, and objects compare without regard to order.
-/

namespace RelQuery

/-- An integer that a `bigint` column can hold. -/
structure Bigint where
  val : Int
  ge : -0x8000000000000000 ≤ val
  lt : val < 0x8000000000000000
  deriving DecidableEq

/-- The first natural number that is none. -/
def Bigint.bound : Nat := 0x8000000000000000

def Bigint.ofInt? (n : Int) : Option Bigint :=
  if h : -0x8000000000000000 ≤ n ∧ n < 0x8000000000000000 then some ⟨n, h.1, h.2⟩ else none

/-- The nearest integer in range. -/
def Bigint.clamp (n : Int) : Bigint :=
  ⟨max (-0x8000000000000000) (min n 0x7fffffffffffffff), by omega, by omega⟩

/-- A number: an integer of 64 bits, signed or not, or a finite double. -/
inductive Number
  | int (val : Int) (ge : -0x8000000000000000 ≤ val) (lt : val < 0x10000000000000000)
  | float (x : Binary64)
  deriving DecidableEq

namespace Number

def ofInt? (n : Int) : Option Number :=
  if h : -0x8000000000000000 ≤ n ∧ n < 0x10000000000000000 then some (.int n h.1 h.2) else none

def ofBigint (n : Bigint) : Number :=
  .int n.val n.ge (by have := n.lt; omega)

/-- The number as a `bigint`, if it is an integer in range. -/
def toBigint? : Number → Option Bigint
  | .int n _ _ => Bigint.ofInt? n
  | .float _ => none

/-- The number as an unsigned integer of 64 bits. -/
def toNat? : Number → Option Nat
  | .int n _ _ => if 0 ≤ n then some n.toNat else none
  | .float _ => none

/-- The nearest double. -/
def toBinary64? : Number → Option Binary64
  | .int n _ _ => Binary64.ofInt? n
  | .float x => some x

def text : Number → String
  | .int n _ _ => toString n
  | .float x => x.jsonText

def same : Number → Number → Bool
  | .int a _ _, .int b _ _ => a == b
  | .float x, .float y => x.same y
  | _, _ => false

end Number

inductive Document
  | null
  | bool (b : Bool)
  | num (n : Number)
  | str (s : String)
  | arr (items : List Document)
  | obj (fields : List (String × Document))
  deriving Inhabited

namespace Document

/-- Induction on documents, with the hypothesis for all items and all values of fields. -/
@[induction_eliminator]
theorem induction {P : Document → Prop} (null : P .null) (bool : ∀ b, P (.bool b))
    (num : ∀ n, P (.num n)) (str : ∀ s, P (.str s))
    (arr : ∀ items, (∀ d ∈ items, P d) → P (.arr items))
    (obj : ∀ fields, (∀ f ∈ fields, P f.2) → P (.obj fields)) (d : Document) : P d :=
  @Document.rec P (fun items => ∀ d ∈ items, P d) (fun fields => ∀ f ∈ fields, P f.2)
    (fun f => P f.2) null bool num str arr obj (fun _ h => nomatch h)
    (fun _ _ h ih _ hd => (List.mem_cons.mp hd).elim (· ▸ h) (ih _)) (fun _ h => nomatch h)
    (fun _ _ h ih _ hf => (List.mem_cons.mp hf).elim (· ▸ h) (ih _)) (fun _ _ h => h) d

mutual

def same : Document → Document → Bool
  | .null, .null => true
  | .bool a, .bool b => a == b
  | .num a, .num b => a.same b
  | .str a, .str b => a == b
  | .arr as, .arr bs => sameItems as bs
  | .obj fs, .obj gs => fs.length == gs.length && sameFields fs gs
  | _, _ => false

def sameItems : List Document → List Document → Bool
  | [], [] => true
  | a :: as, b :: bs => same a b && sameItems as bs
  | _, _ => false

/-- Every field has an equal one of the same name on the other side. -/
def sameFields : List (String × Document) → List (String × Document) → Bool
  | [], _ => true
  | (k, a) :: fs, gs => gs.any (fun g => g.1 == k && same a g.2) && sameFields fs gs

end

instance : BEq Document := ⟨same⟩

def isNull : Document → Bool
  | .null => true
  | _ => false

/-- The field `key` of an object. -/
def get? (key : String) : Document → Option Document
  | .obj fields => fields.lookup key
  | _ => none

def ofNat? (n : Nat) : Option Document := (Number.ofInt? n).map .num

end Document

/-- The fields of an object, each key once, in order. -/
abbrev Fields := List (String × Document)

namespace Fields

/-- Sets a field where it stands, or as the last one. -/
def insert (key : String) (value : Document) : Fields → Fields
  | [] => [(key, value)]
  | f :: fs => if f.1 = key then (key, value) :: fs else f :: insert key value fs

/-- Takes a field out; the last field moves into its place. -/
def erase (key : String) (fs : Fields) : Fields :=
  match fs.findIdx? (·.1 = key), fs.getLast? with
  | some i, some last => (fs.set i last).dropLast
  | _, _ => fs

/-- The fields of a list in which the last value of a key counts, at the place of its first. -/
def ofList (fs : List (String × Document)) : Fields :=
  fs.foldl (fun acc f => insert f.1 f.2 acc) []

end Fields

end RelQuery
