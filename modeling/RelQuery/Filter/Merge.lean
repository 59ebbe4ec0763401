import RelQuery.Filter.Basic

/-!
# Merging filters

Two filters are merged conjunct by conjunct. What both say of one key becomes an alternative, what
only one says is kept.
-/

namespace RelQuery

namespace Filter

/-- What a conjunct constrains: an attribute by an operator. -/
structure MergeKey where
  computed : Bool
  path : AttributePath
  operator : Operator
  negated : Bool
  deriving DecidableEq

mutual

/-- The key of a comparison, or of a disjunction whose operands all have the same key. -/
def mergeKey? : Filter → Option MergeKey
  | .comparison c => some ⟨false, c.path, c.operator, c.negated⟩
  | .computed c => some ⟨true, c.path, c.operator, c.negated⟩
  | .logical .or fs => commonKey? fs
  | _ => none

def commonKey? : List Filter → Option MergeKey
  | [] => none
  | [f] => mergeKey? f
  | f :: fs => if mergeKey? f = commonKey? fs then mergeKey? f else none

end

/-- Conjuncts by their key, in order of their first, and those that have none. -/
structure Grouped where
  keyed : List (MergeKey × List Filter) := []
  free : List Filter := []

namespace Grouped

def addKeyed (key : MergeKey) (f : Filter) :
    List (MergeKey × List Filter) → List (MergeKey × List Filter)
  | [] => [(key, [f])]
  | g :: gs => if g.1 = key then (key, g.2 ++ [f]) :: gs else g :: addKeyed key f gs

def add (g : Grouped) (f : Filter) : Grouped :=
  match f.mergeKey? with
  | some key => { g with keyed := addKeyed key f g.keyed }
  | none => { g with free := g.free ++ [f] }

end Grouped

def grouped (f : Filter) : Grouped := f.conjuncts.foldl .add {}

def sameSet (as bs : List Filter) : Bool :=
  as.length == bs.length && as.all bs.contains && bs.all as.contains

/-- What both sides say of one key: a single copy if they agree, else an alternative. -/
def alternatives (as bs : List Filter) : List Filter :=
  if sameSet as bs then as else [any [all as, all bs]]

/-- The conjuncts of `a` on its keys, joined with those of `b` on the same. -/
def joinKeyed (a b : List (MergeKey × List Filter)) : List Filter :=
  a.flatMap fun (key, fs) =>
    match b.lookup key with
    | some gs => alternatives fs gs
    | none => fs

/-- The conjuncts of `b` on keys that `a` has not. -/
def otherKeyed (a b : List (MergeKey × List Filter)) : List Filter :=
  b.flatMap fun (key, gs) => if a.any (·.1 = key) then [] else gs

/-- The filters with those of a second list that are not among them. -/
def append (fs gs : List Filter) : List Filter :=
  gs.foldl (fun acc g => if acc.contains g then acc else acc ++ [g]) fs

/-- The conjuncts of the merge of two filters. -/
def mergedParts (a b : Filter) : List Filter :=
  let a := a.grouped
  let b := b.grouped
  append (joinKeyed a.keyed b.keyed ++ otherKeyed a.keyed b.keyed ++ a.free) b.free

/-- No filter at all is true; a merge that is always true is no filter. -/
def merge? : Option Filter → Option Filter → Option Filter
  | none, b => b
  | a, none => a
  | some a, some b => if a == b then some a else (all (mergedParts a b)).proper?

end Filter

end RelQuery
