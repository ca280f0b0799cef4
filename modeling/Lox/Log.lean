/-! # Log records

What the library notes about its work, by importance. -/

namespace Lox

namespace Log

/-- How important a record is, from the most important on. -/
inductive Level where
  | warn
  | debug
  | trace
deriving DecidableEq, Repr

/-- The place of a level among all levels. -/
def Level.rank (level : Level) : Nat := level.ctorIdx

/-- The name of a level. -/
def Level.name : Level → String
  | warn => "WARN"
  | debug => "DEBUG"
  | trace => "TRACE"

/-- A note with its importance. -/
structure Record where
  level : Level
  message : String
deriving DecidableEq, Repr

/-- A record as text. -/
def Record.text (record : Record) : String := record.level.name ++ " " ++ record.message

/-- The records that are at least as important as `level`. -/
def select (level : Level) (records : List Record) : List Record :=
  records.filter fun record => record.level.rank ≤ level.rank

end Log

end Lox
