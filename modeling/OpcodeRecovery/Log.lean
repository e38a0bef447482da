/-!
Log records. Operations that have something to tell return their records beside their
result, in the order in which they were written.
-/

namespace OpcodeRecovery

namespace Log

/-- The weight of a record. -/
inductive Level where
  | debug
  | info
  | warn
  deriving DecidableEq, Repr

/-- The name of a level. -/
def Level.name : Level → String
  | debug => "DEBUG"
  | info => "INFO"
  | warn => "WARN"

/-- One line of the log. -/
structure Record where
  level : Level
  text : String
  deriving DecidableEq, Repr

end Log

end OpcodeRecovery
