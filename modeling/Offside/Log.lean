/-!
# Log

What the program tells about its own progress.

- `Log.Record`: a message of a logger at a level, and its printed form.
- `Log.qualify`: the full name of a logger.
- `Log.Level.ofVerbosity`: how much is told at a verbosity.
- `Log.Logger`: the logger of the whole program.
-/
namespace Offside.Log

set_option autoImplicit false

inductive Level where
  | debug
  | info
  | warning
  deriving DecidableEq, Repr

namespace Level

def name : Level → String
  | debug => "DEBUG"
  | info => "INFO"
  | warning => "WARNING"

def rank : Level → Nat
  | debug => 0
  | info => 1
  | warning => 2

/-- The least level told at a verbosity: warnings only, then progress, then everything. -/
def ofVerbosity (verbosity : Int) : Level :=
  if verbosity ≤ 0 then warning else if verbosity = 1 then info else debug

end Level

structure Record where
  level : Level
  logger : String
  message : String
  deriving DecidableEq, Repr

def Record.text (record : Record) : String :=
  record.level.name ++ " " ++ record.logger ++ ": " ++ record.message

def atLeast (level : Level) (records : List Record) : List Record :=
  records.filter fun record => level.rank ≤ record.level.rank

def root : String := "slag"

/-- The full name of a logger: a name outside the root is put under it. -/
def qualify (name : String) : String :=
  if name = root ∨ (root ++ ".").toList.isPrefixOf name.toList then name
  else root ++ "." ++ name

def layoutLogger : String := qualify "layout"

def filingLogger : String := qualify "driver"

def commandLogger : String := qualify "cli"

/-- The root logger: the level it tells, and how many handlers it writes to. -/
structure Logger where
  level : Level
  handlers : Nat
  deriving DecidableEq, Repr

def Logger.fresh : Logger := ⟨.warning, 0⟩

def Logger.configure (logger : Logger) (verbosity : Int) : Logger :=
  ⟨Level.ofVerbosity verbosity, max 1 logger.handlers⟩

end Offside.Log
