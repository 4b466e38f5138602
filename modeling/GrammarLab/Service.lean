import GrammarLab.Json.Read
import GrammarLab.Service.View
import GrammarLab.Text.Html

/-!
# The request service

Four routes: a health check, grammar analysis, parsing and tokenizing. A request body that is no
readable JSON counts as an empty object, and so does any value that is not true. A field of the
wrong type is an unexpected error, answered with status 500 and logged. An answer without a body is
one whose body is no JSON.
-/

namespace GrammarLab.Service

structure Request where
  method : String
  path : String
  contentType : String := ""
  body : String := ""
  deriving DecidableEq, Repr

structure Response where
  status : Nat
  body : Option Json
  log : String := ""

def Response.bare (status : Nat) : Response := { status, body := none }

def Response.logged (line : String) (r : Response) : Response :=
  { r with log := line ++ "\n" ++ r.log }

abbrev Fields := List (String × Json)

/-- The media type of a content type, without parameters and in lower case. -/
def mediaType (contentType : String) : List Char :=
  let cs := contentType.toList.takeWhile (· ≠ ';')
  (Text.trimEnd (fun c => Text.IsBlank c) (cs.dropWhile fun c => Text.IsBlank c)).map Char.toLower

def IsJsonType (contentType : String) : Prop :=
  mediaType contentType = "application/json".toList ∨
    ("application/".toList <+: mediaType contentType ∧ "+json".toList <:+ mediaType contentType)

instance (contentType : String) : Decidable (IsJsonType contentType) :=
  inferInstanceAs (Decidable (_ ∨ (_ ∧ _)))

/-- The value of a request body; an empty object unless there is a true value to be read. -/
def Request.data (r : Request) : Json :=
  if IsJsonType r.contentType then
    ((Json.read r.body).filter Json.truthy).getD (.obj [])
  else .obj []

def given (fields : Fields) (name : String) : Option Json := fields.lookup name

/-- A field that is absent or not true is missing. -/
def required (fields : Fields) (name : String) : Option Json :=
  (given fields name).filter Json.truthy

def refusal (message : String) : Response :=
  { status := 400, body := some (.obj [("error", .str message)]) }

/-- Null is shown as nothing, any other value as its display text. -/
def escapeHtml : Json → String
  | .null => ""
  | v => Text.escapeHtml v.display

def unexpected (message : String) : Response :=
  { status := 500
    body := some (.obj [("error", .str ("Unexpected server error: " ++ escapeHtml (.str message))),
      ("error_type", .str "system_error")])
    log := "--- UNEXPECTED Python Error: " ++ message ++ " ---\n" }

/-- The text of an error about a value that lacks an operation of strings. -/
def lacksOperation (v : Json) (operation : String) : String :=
  "'" ++ v.typeName ++ "' object has no attribute '" ++ operation ++ "'"

def lacksConcatenation : Json → String
  | .arr _ => "can only concatenate list (not \"str\") to list"
  | v => "unsupported operand type(s) for +: '" ++ v.typeName ++ "' and 'str'"

def malformedGrammar (m : Malformed) : Response :=
  { status := 400
    body := some (.obj [("error", .str m.message), ("error_type", .str "grammar_error"),
      ("line", .int m.number)])
    log := "--- Grammar Processing FAILED ---\nError: " ++ m.message ++ "\n" }

def loadFailure : LoadError → Response
  | .malformed m => malformedGrammar m
  | .fault f => unexpected f.message

/-- The analysis of a grammar field, or the answer to a field that gives none. -/
def loadField : Json → Except Response Analysis
  | .str text => (Analysis.load {} text).mapError loadFailure
  | v => .error (unexpected (lacksOperation v "split"))

def analyzed (a : Analysis) : Response :=
  { status := 200
    body := some (.obj (summaryFields a.summary))
    log := "--- Grammar Analysis SUCCEEDED ---\nFound " ++
      toString a.summary.productions.length ++ " productions\n" ++
      if a.summary.conflicts = [] then ""
      else "Conflicts detected: " ++ toString a.summary.conflicts.length ++ "\n" }

def analyze (fields : Fields) : Response :=
  match required fields "grammar" with
  | none => refusal "No grammar provided"
  | some grammar =>
    let answer := match loadField grammar with
      | .ok a => analyzed a
      | .error r => r
    answer.logged "--- Analyzing Grammar ---"

def errorType : ParseError → String
  | .missingEndMarker _ => "missing_end_marker"
  | .undefinedNonterminal _ _ _ => "undefined_nonterminal"
  | .noProduction _ _ _ => "no_production"

def traceFields (a : Analysis) (t : Trace) : Fields :=
  [("trace", traceView a.display t), ("traceSteps", .int t.length)]

def parsed (a : Analysis) : Except ParseError Trace → Response
  | .ok t =>
    { status := 200
      body := some (.obj (summaryFields a.summary ++ ("success", .bool true) :: traceFields a t))
      log := "--- Parsing SUCCEEDED ---\n" }
  | .error e =>
    { status := 400
      body := some (.obj (summaryFields a.summary ++ ("success", .bool false) ::
        ("error", .str e.message) :: ("error_type", .str (errorType e)) :: traceFields a e.trace))
      log := "--- Parsing FAILED ---\nError: " ++ e.message ++ "\n" }

/-- The answer to an input field, if parsing ends within the given number of moves. -/
def parseField (limit : Nat) (a : Analysis) (input : Json) : Option Response :=
  let answer := match input with
    | .str text => (a.parser.parse limit text).map (parsed a)
    | v => some (unexpected (lacksOperation v "endswith"))
  answer.map (Response.logged ("--- Parsing Input String: '" ++ input.display ++ "' ---"))

def parse (limit : Nat) (fields : Fields) : Option Response :=
  match required fields "grammar", required fields "input" with
  | none, _ => some (refusal "No grammar provided")
  | some _, none => some (refusal "No input string provided")
  | some grammar, some input =>
    match loadField grammar with
    | .ok a => parseField limit a input
    | .error r => some r

def tokenized (source : String) : Response :=
  let (ts, record) := Lexer.Recognized.tokenize {} source
  { status := 200
    body := some (.obj [("tokens", tokensView ts),
      ("summary", .obj ((Lexer.summary ts).map fun c => (c.1.displayName, .int c.2))),
      ("recognized", .obj (record.entries.map fun e => (e.1, categoryView e.2)))])
    log := "Produced " ++ toString ts.length ++ " tokens\n" }

/-- A source may be empty, but neither absent nor null. -/
def tokenize (fields : Fields) : Response :=
  match given fields "source" with
  | none | some .null => refusal "No source provided"
  | some v =>
    let answer := match v with
      | .str source => tokenized source
      | v => unexpected (lacksConcatenation v)
    answer.logged "--- Tokenizing Source ---"

inductive Route where
  | health
  | analyze
  | parse
  | tokenize
  deriving DecidableEq, Repr

def Route.ofPath? (path : String) : Option Route :=
  [("/health", .health), ("/ll1/analyze", .analyze), ("/ll1/parse", .parse),
    ("/lexical/tokenize", .tokenize)].lookup (String.ofList (path.toList.takeWhile (· ≠ '?')))

def Route.method : Route → String
  | .health => "GET"
  | _ => "POST"

def healthy : Response := { status := 200, body := some (.obj [("status", .str "ok")]) }

/-- A body whose value is true but no object is answered without a body. -/
def Route.answer (limit : Nat) (route : Route) (r : Request) : Option Response :=
  match route, r.data with
  | .health, _ => some healthy
  | .analyze, .obj fields => some (Service.analyze fields)
  | .parse, .obj fields => Service.parse limit fields
  | .tokenize, .obj fields => some (Service.tokenize fields)
  | _, _ => some (.bare 500)

/-- Every route can be asked for its options, and one that is read can be asked for its head; both
are answered without a body. -/
def Route.IsBareMethod (route : Route) (method : String) : Prop :=
  method = "OPTIONS" ∨ (method = "HEAD" ∧ route.method = "GET")

instance (route : Route) (method : String) : Decidable (route.IsBareMethod method) :=
  inferInstanceAs (Decidable (_ ∨ (_ ∧ _)))

/-- Methods are compared in upper case. -/
def Request.upperMethod (r : Request) : String := String.ofList (r.method.toList.map Char.toUpper)

/-- The answer to a request, if it is reached within the given number of parser moves. -/
def respond (limit : Nat) (r : Request) : Option Response :=
  match Route.ofPath? r.path with
  | none => some (.bare 404)
  | some route =>
    if r.upperMethod = route.method then route.answer limit r
    else if route.IsBareMethod r.upperMethod then some (.bare 200)
    else some (.bare 405)

end GrammarLab.Service
