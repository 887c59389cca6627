import Scripting.Text.Numeral
import Scripting.Text.Upper

/-!
Settings, read from environment variables. A text that makes no sense for a setting leaves it at its
default.
-/

set_option autoImplicit false

namespace Scripting

structure Environment where
  callDepth : Option String
  traceback : Option String
  logLevel : Option String

namespace Environment

def callDepthVariable : String := "SKIFF_MAX_CALL_DEPTH"

def tracebackVariable : String := "SKIFF_DEBUG_PY_TRACE"

def logLevelVariable : String := "SKIFF_LOG_LEVEL"

def defaultCallDepth : Nat := 10000

def maxCallDepth (e : Environment) : Nat :=
  match e.callDepth.bind fun text => Text.integer? (Text.strip text) with
  | some (.ofNat (n + 1)) => n + 1
  | _ => defaultCallDepth

/-- Lower case of the letters a flag is written in. No character beyond ASCII has one of the letters of
    a flag as its lower case. -/
def lowerFlag (text : String) : String :=
  String.ofList (text.toList.map Char.toLower)

def showsTraceback (e : Environment) : Bool :=
  lowerFlag (Text.strip (e.traceback.getD "")) ∈ ["1", "true", "yes", "on"]

def logLevelName (e : Environment) (otherwise : String) : String :=
  let name := Text.strip (e.logLevel.getD "")
  if name = "" then otherwise else Text.upper name

def logsDetails (e : Environment) : Bool :=
  e.logLevelName "WARNING" ∈ ["DEBUG", "NOTSET"]

end Environment

end Scripting
