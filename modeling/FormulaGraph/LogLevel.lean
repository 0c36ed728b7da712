import FormulaGraph.Fault

/-!
# Log levels

The names of the levels of detail at which a search may report.
-/

namespace FormulaGraph

inductive LogLevel where
  | debug
  | info
  | warn
  | error
deriving DecidableEq, Repr

namespace LogLevel

/-- The level of a name, no level where reporting is off, and nothing for a
name that is not known. -/
def ofName? : String → Option (Option LogLevel)
  | "off" | "none" => some none
  | "debug" => some (some debug)
  | "info" => some (some info)
  | "warn" => some (some warn)
  | "error" => some (some error)
  | _ => none

/-- The level of a name; `info` where no name is given. -/
def parse {α : Type} : Option String → Except (Fault α) (Option LogLevel)
  | none => .ok (some info)
  | some name =>
    match ofName? name with
    | some level => .ok level
    | none => .error (.unknownLogLevel name)

end LogLevel

end FormulaGraph
