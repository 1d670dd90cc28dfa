/-!
Settings of a compilation: how strict reading is, and the three texts that rendering puts between
and behind things.
-/

namespace CallForms

/-- The separators of rendered code. Any texts will do, empty ones included. -/
structure Layout where
  argumentSeparator : String := ", "
  statementTerminator : String := ";"
  lineSeparator : String := "\n"
  deriving DecidableEq, Repr, Inhabited

structure Config extends Layout where
  /-- Whether a call has to be named by a name token. -/
  strictCallee : Bool := false
  deriving DecidableEq, Repr, Inhabited

inductive ConfigError where
  | emptyArgumentSeparator
  | emptyLineSeparator
  deriving DecidableEq, Repr

def ConfigError.message : ConfigError → String
  | emptyArgumentSeparator => "argument_separator must not be empty"
  | emptyLineSeparator => "line_separator must not be empty"

namespace Config

/-- Refuses separators that would run things together, the argument separator first. A terminator
may be empty. -/
def check (config : Config) : Except ConfigError Config :=
  if config.argumentSeparator = "" then .error .emptyArgumentSeparator
  else if config.lineSeparator = "" then .error .emptyLineSeparator
  else .ok config

def withStrictCallee (config : Config) (strict : Bool) : Config :=
  { config with strictCallee := strict }

/-- A client that recurses on the nesting of a program should keep this many bytes of its stack
free. -/
def stackReserve : Nat := 64 * 1024

/-- The size in bytes of the stack such a client should continue on. -/
def stackSegment : Nat := 8 * 1024 * 1024

end Config

end CallForms
