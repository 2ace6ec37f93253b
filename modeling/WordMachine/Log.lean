namespace WordMachine.Log

/-!
# Log records

What the parts of the library report while they work.
-/

/-- How much a record matters. -/
inductive Level where
  | error | info | debug | trace
  deriving DecidableEq, Repr

/-- The name of a level in a log line. -/
def Level.name : Level → String
  | error => "ERROR"
  | info => "INFO"
  | debug => "DEBUG"
  | trace => "TRACE"

/-- The part of the library that reports. -/
inductive Channel where
  | assembler | codec | machine | session
  deriving DecidableEq, Repr

/-- A line of the log. -/
structure Record where
  level : Level
  channel : Channel
  message : String
  deriving DecidableEq, Repr

end WordMachine.Log
