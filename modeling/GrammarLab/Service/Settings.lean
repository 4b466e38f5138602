import GrammarLab.Text.Numeral

/-!
# Service settings

Host, port and debug flag come from three environment variables and have defaults. The port is any
integer. The debug flag is set by one of three words in any case of ASCII letters.
-/

namespace GrammarLab.Service

structure Settings where
  host : String := "127.0.0.1"
  port : Int := 5000
  debug : Bool := false
  deriving DecidableEq, Repr

structure BadPort where
  value : String
  cause : Text.NumeralError
  deriving DecidableEq, Repr

def BadPort.message (e : BadPort) : String := e.cause.message e.value

def isDebugWord (value : String) : Bool :=
  String.ofList (value.toList.map Char.toLower) ∈ ["1", "true", "yes"]

def Settings.fromEnvironment (value? : String → Option String) : Except BadPort Settings := do
  let port ← match value? "LL1_PORT" with
    | none => pure 5000
    | some value => (Text.readInteger value.toList).mapError (BadPort.mk value)
  return {
    host := (value? "LL1_HOST").getD "127.0.0.1"
    port
    debug := ((value? "LL1_DEBUG").map isDebugWord).getD false }

end GrammarLab.Service
