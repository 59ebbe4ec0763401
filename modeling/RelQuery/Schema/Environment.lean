import RelQuery.Error
import RelQuery.Schema.Config

/-!
# Settings from the environment

Environment variables that take the place of planner options.
-/

namespace RelQuery

/-- Reads a dialect by any of its names, in any case. -/
def Dialect.parse? (s : String) : Option Dialect :=
  [("postgres", postgres), ("postgresql", postgres), ("mssql", mssql), ("mysql", mysql),
    ("mariadb", mysql), ("sqlite", sqlite)].lookup (Text.toLower s)

namespace Options

def maxManyVariable : String := "MODELGRAPH_MAX_MANY_ASSOCIATIONS"

def dialectVariable : String := "MODELGRAPH_DIALECT"

def namespaceVariable : String := "MODELGRAPH_NAMESPACE"

/-- A count of 64 bits. -/
def parseCount? (s : String) : Option Nat := (Numeral.nat? s.toList).filter (· < 0x10000000000000000)

/-- The options with every setting of `env` in place. -/
def override (o : Options) (env : String → Option String) : Except ConfigError Options := do
  let maxMany ← match env maxManyVariable with
    | none => .ok o.maxMany
    | some s => match parseCount? s with
      | some n => .ok n
      | none => .error (.invalidCount maxManyVariable s)
  let dialect ← match env dialectVariable with
    | none => .ok o.dialect
    | some s => match Dialect.parse? s with
      | some d => .ok d
      | none => .error (.invalidDialect s)
  return { maxMany, dialect, namespaceName := (env namespaceVariable).getD o.namespaceName }

end Options

end RelQuery
