import GrammarLab.Demo
import GrammarLab.Json.Write
import GrammarLab.Service

/-!
# Command line

`analyze` and `tokenize` print demonstrations. `serve` prints the banner and then answers requests
from standard input, one JSON object on a line with the fields `method`, `path`, `content_type` and
`body`; each answer is one line, and log lines go to standard error.
-/

namespace GrammarLab.CommandLine

/-- Parsing that takes more moves than this is given up. -/
def moveLimit : Nat := 1000000

def textField (v : Json) (name : String) : String :=
  match v.field? name with
  | some (.str s) => s
  | _ => ""

def request (line : String) : Option Service.Request := do
  let v ← Json.read line
  return {
    method := textField v "method"
    path := textField v "path"
    contentType := textField v "content_type"
    body := textField v "body" }

def responseLine (r : Service.Response) : String :=
  (Json.obj (("status", .int r.status) :: (r.body.map fun b => ("body", b)).toList)).write

def answerLine (line : String) : IO Unit := do
  match (request line).bind (Service.respond moveLimit) with
  | none => IO.println (responseLine (.bare 400))
  | some r => do
    IO.eprint r.log
    IO.println (responseLine r)

partial def serve (input : IO.FS.Stream) : IO Unit := do
  let line ← input.getLine
  unless line.isEmpty do
    answerLine line
    (← IO.getStdout).flush
    serve input

def environment : IO (String → Option String) := do
  let host ← IO.getEnv "LL1_HOST"
  let port ← IO.getEnv "LL1_PORT"
  let debug ← IO.getEnv "LL1_DEBUG"
  let known := [("LL1_HOST", host), ("LL1_PORT", port), ("LL1_DEBUG", debug)]
  return fun name => (known.lookup name).join

def run : List String → IO UInt32
  | ["analyze"] => do
    IO.print ((Demo.analysis moveLimit).getD "")
    return 0
  | ["tokenize"] => do
    IO.print Demo.tokens
    return 0
  | ["serve"] => do
    match Service.Settings.fromEnvironment (← environment) with
    | .error e => do
      IO.eprintln e.message
      return 1
    | .ok settings => do
      IO.print (Demo.banner settings)
      serve (← IO.getStdin)
      return 0
  | _ => do
    IO.eprintln "usage: analyze | tokenize | serve"
    return 2

end GrammarLab.CommandLine

def main (args : List String) : IO UInt32 := GrammarLab.CommandLine.run args
