import Mathlib
import GrammarLab.Service
import GrammarLab.Proofs.Trace

/-!
# Answers of the service and outcomes of the engine

A text with a malformed line, an accepted input and each of the three errors of a parse are told
apart by the answer to a parse, and no text leads to an unexpected error. Both routes show the same
analysis of a grammar, also where the parse fails.
-/

namespace GrammarLab.Service

/-- The request posts an object to the route. -/
structure Request.Posts (q : Request) (route : Route) (fields : Fields) : Prop where
  method : q.upperMethod = "POST"
  path : Route.ofPath? q.path = some route
  data : q.data = .obj fields

/-- A text that is not empty stands under the name. -/
structure Holds (fields : Fields) (name text : String) : Prop where
  given : given fields name = some (.str text)
  ne_empty : text ≠ ""

/-- Within some number of moves, the input is parsed with the analysis of the grammar. -/
structure Parses (grammar input : String) (a : Analysis) (result : Except ParseError Trace) :
    Prop where
  load : Analysis.load {} grammar = .ok a
  parse : ∃ limit, a.parser.parse limit input = some result

namespace Response

def field? (r : Response) (name : String) : Option Json := r.body.bind fun v => v.field? name

/-- The answer puts the blame on a line of the grammar. -/
structure Blames (r : Response) (number : Nat) : Prop where
  status : r.status = 400
  errorType : r.field? "error_type" = some (.str "grammar_error")
  line : r.field? "line" = some (.int number)

/-- A step of a trace as an object of five fields. -/
structure ShowsStep (display : String) (number : Nat) (s : Step) (v : Json) : Prop where
  step : v.field? "step" = some (.int number)
  kind : v.field? "kind" = some (.str s.action.kind)
  stack : v.field? "stack" = some (.str (Candidate.render display s.stack))
  remaining : v.field? "remaining" = some (.str (Candidate.render display s.remaining))
  action : v.field? "action" = some (.str (s.action.text display))
  names : ∃ fields, v = .obj fields ∧
    fields.map Prod.fst = ["step", "kind", "stack", "remaining", "action"]

/-- The answer lists every step of the trace, numbered from one, and counts what it lists. -/
structure Lists (r : Response) (display : String) (t : Trace) (rows : List Json) : Prop where
  trace : r.field? "trace" = some (.arr rows)
  traceSteps : r.field? "traceSteps" = some (.int rows.length)
  length : rows.length = t.length
  step : ∀ n s v, t[n]? = some s → rows[n]? = some v → ShowsStep display (n + 1) s v

def Shows (r : Response) (display : String) (t : Trace) : Prop := ∃ rows, r.Lists display t rows

/-- The answer gives every part of the summary, in the order of the summary. -/
structure ShowsSummary (r : Response) (s : Summary) : Prop where
  startSymbol : r.field? "start_symbol" = some (.str s.startSymbol)
  productions : r.field? "productions" = some (.arr (s.productions.map .str))
  terminals : r.field? "terminals" = some (.arr (s.terminals.map .str))
  first : r.field? "first" = some (.arr (s.first.map fun e =>
    .obj [("variable", .str e.1), ("set", .arr (e.2.map .str))]))
  follow : r.field? "follow" = some (.arr (s.follow.map fun e =>
    .obj [("variable", .str e.1), ("set", .arr (e.2.map .str))]))
  table : r.field? "table" = some (.arr (s.table.map fun e =>
    .obj [("variable", .str e.1), ("terminals", .obj (e.2.map fun c => (c.1, .str c.2)))]))
  conflicts : r.field? "conflicts" = some (.arr (s.conflicts.map fun c =>
    .obj [("variable", .str c.left), ("lookahead", .str c.lookahead),
      ("replaced", .str c.replaced), ("replacement", .str c.replacement),
      ("message", .str c.message)]))

end Response

/-- Both answers, the one to a parse and the one to an analysis of the same grammar, are those
that the engine calls for. -/
structure Agree (grammar input : String) (parsing analysis : Response) : Prop where
  blames_iff : ∀ n, parsing.Blames n ↔
    ∃ m, Analysis.load {} grammar = .error (.malformed m) ∧ m.number = n
  blamed : ∀ m, Analysis.load {} grammar = .error (.malformed m) →
    analysis.status = parsing.status ∧ analysis.body = parsing.body ∧
      parsing.field? "error" = some (.str m.message)
  summary : ∀ a, Analysis.load {} grammar = .ok a → analysis.status = 200 ∧
    analysis.body = some (.obj (summaryFields a.summary)) ∧
      ∀ name v, analysis.field? name = some v → parsing.field? name = some v
  shown : ∀ a, Analysis.load {} grammar = .ok a →
    analysis.ShowsSummary a.summary ∧ parsing.ShowsSummary a.summary
  accepts_iff : parsing.status = 200 ↔ ∃ a t, Parses grammar input a (.ok t)
  accepted : ∀ a t, Parses grammar input a (.ok t) →
    parsing.field? "success" = some (.bool true) ∧ parsing.Shows a.display t
  rejected : ∀ a e, Parses grammar input a (.error e) → parsing.status = 400 ∧
    parsing.field? "success" = some (.bool false) ∧ parsing.Shows a.display e.trace ∧
      parsing.field? "error" = some (.str e.message)
  missingEndMarker_iff : parsing.field? "error_type" = some (.str "missing_end_marker") ↔
    ∃ a marker, Parses grammar input a (.error (.missingEndMarker marker))
  undefinedNonterminal_iff : parsing.field? "error_type" = some (.str "undefined_nonterminal") ↔
    ∃ a s b t, Parses grammar input a (.error (.undefinedNonterminal s b t))
  noProduction_iff : parsing.field? "error_type" = some (.str "no_production") ↔
    ∃ a s b t, Parses grammar input a (.error (.noProduction s b t))
  not_fallback : parsing.field? "error_type" ≠ some (.str "parsing_error")
  expected : parsing.status ≠ 500 ∧ analysis.status ≠ 500

variable {grammar input : String} {a b : Analysis} {result other : Except ParseError Trace}

theorem Parses.unique (h : Parses grammar input a result) (k : Parses grammar input b other) :
    b = a ∧ other = result := by
  obtain rfl : a = b := Except.ok.inj (h.load.symm.trans k.load)
  obtain ⟨limit, hparse⟩ := h.parse
  obtain ⟨more, kparse⟩ := k.parse
  have hsame := (a.parser.parse_mono (le_max_left limit more) hparse).symm.trans
    (a.parser.parse_mono (le_max_right limit more) kparse)
  exact ⟨rfl, (Option.some.inj hsame).symm⟩

theorem Parses.iff (h : Parses grammar input a result) :
    Parses grammar input b other ↔ b = a ∧ other = result := by
  constructor
  · exact h.unique
  · rintro ⟨rfl, rfl⟩
    exact h

section Fields

variable (r : Response) (line name : String)

@[simp] theorem Response.status_logged : (r.logged line).status = r.status := rfl

@[simp] theorem Response.field?_logged : (r.logged line).field? name = r.field? name := rfl

variable {r}

theorem Response.Lists.logged {display : String} {t : Trace} {rows : List Json}
    (h : r.Lists display t rows) : (r.logged line).Lists display t rows :=
  ⟨h.trace, h.traceSteps, h.length, h.step⟩

theorem Response.Shows.logged {display : String} {t : Trace} (h : r.Shows display t) :
    (r.logged line).Shows display t := by
  obtain ⟨rows, hrows⟩ := h
  exact ⟨rows, hrows.logged line⟩

theorem Response.ShowsSummary.mono {q : Response} {s : Summary} (h : r.ShowsSummary s)
    (hfields : ∀ name v, r.field? name = some v → q.field? name = some v) : q.ShowsSummary s where
  startSymbol := hfields _ _ h.startSymbol
  productions := hfields _ _ h.productions
  terminals := hfields _ _ h.terminals
  first := hfields _ _ h.first
  follow := hfields _ _ h.follow
  table := hfields _ _ h.table
  conflicts := hfields _ _ h.conflicts

end Fields

theorem showsStep_rowView (display : String) (number : Nat) (s : Step) :
    Response.ShowsStep display number s (rowView (s.row display number)) :=
  ⟨rfl, rfl, rfl, rfl, rfl, _, rfl, rfl⟩

theorem lists_of_fields {r : Response} {display : String} {t : Trace}
    (htrace : r.field? "trace" = some (traceView display t))
    (hsteps : r.field? "traceSteps" = some (.int t.length)) :
    r.Lists display t ((Trace.rows display t).map rowView) where
  trace := htrace
  traceSteps := by rw [hsteps, List.length_map, Trace.length_rows]
  length := by rw [List.length_map, Trace.length_rows]
  step n s v hs hv := by
    obtain rfl : rowView (s.row display (n + 1)) = v := by
      simpa [Trace.rows, hs, Nat.add_comm] using hv
    exact showsStep_rowView display (n + 1) s

/-- The fields that an answer to a parse has besides the summary. -/
def ownFields (a : Analysis) : Except ParseError Trace → Fields
  | .ok t => ("success", .bool true) :: traceFields a t
  | .error e => ("success", .bool false) :: ("error", .str e.message) ::
      ("error_type", .str (errorType e)) :: traceFields a e.trace

theorem body_parsed (a : Analysis) (result : Except ParseError Trace) :
    (parsed a result).body = some (.obj (summaryFields a.summary ++ ownFields a result)) := by
  cases result <;> rfl

/-- The names of the summary come first, and no other field has one of them. -/
theorem field?_parsed {name : String} (h : name ∉ (summaryFields a.summary).map Prod.fst) :
    (parsed a result).field? name = (ownFields a result).lookup name := by
  rw [Response.field?, body_parsed, Option.bind_some, Json.field?, List.lookup_append,
    Assoc.lookup_eq_none.mpr h, Option.none_or]

theorem field?_parsed_of_analyzed {name : String} {v : Json}
    (h : (analyzed a).field? name = some v) : (parsed a result).field? name = some v := by
  have hsummary : (summaryFields a.summary).lookup name = some v := h
  rw [Response.field?, body_parsed, Option.bind_some, Json.field?, List.lookup_append, hsummary,
    Option.some_or]

theorem success_parsed : (parsed a result).field? "success" = some (.bool result.isOk) := by
  rw [field?_parsed (by simp [summaryFields])]
  cases result <;> rfl

theorem error_parsed (a : Analysis) (e : ParseError) :
    (parsed a (.error e)).field? "error" = some (.str e.message) := by
  rw [field?_parsed (by simp [summaryFields])]
  rfl

theorem errorType_parsed_iff {kind : String} :
    (parsed a result).field? "error_type" = some (.str kind) ↔
      ∃ e, result = .error e ∧ errorType e = kind := by
  rw [field?_parsed (by simp [summaryFields])]
  cases result <;> simp [ownFields, traceFields, List.lookup_cons]

theorem shows_parsed : (parsed a result).Shows a.display (Trace.ofResult result) := by
  refine ⟨_, lists_of_fields ?_ ?_⟩
  · rw [field?_parsed (by simp [summaryFields])]
    cases result <;> rfl
  · rw [field?_parsed (by simp [summaryFields])]
    cases result <;> rfl

theorem showsSummary_analyzed (a : Analysis) : (analyzed a).ShowsSummary a.summary :=
  ⟨rfl, rfl, rfl, rfl, rfl, rfl, rfl⟩

theorem errorType_ne {kind : String}
    (h : kind ∉ ["missing_end_marker", "undefined_nonterminal", "no_production"]) (e : ParseError) :
    errorType e ≠ kind := by
  rintro rfl
  cases e <;> simp [errorType] at h

theorem agree_of_malformed {m : Malformed}
    (h : Analysis.load {} grammar = .error (.malformed m)) (line : String) :
    Agree grammar input (malformedGrammar m) ((malformedGrammar m).logged line) := by
  have hload : ∀ a, Analysis.load {} grammar ≠ .ok a := by
    intro a k
    cases h.symm.trans k
  have hparses : ∀ a result, ¬Parses grammar input a result := fun a _ k => hload a k.load
  have hkind : (malformedGrammar m).field? "error_type" = some (.str "grammar_error") := rfl
  exact {
    blames_iff := by
      intro n
      rw [h]
      constructor
      · intro hblames
        cases hblames.line
        exact ⟨m, rfl, rfl⟩
      · rintro ⟨_, heq, rfl⟩
        cases heq
        exact ⟨rfl, hkind, rfl⟩
    blamed := by
      intro _ k
      cases h.symm.trans k
      exact ⟨rfl, rfl, rfl⟩
    summary := fun a k => absurd k (hload a)
    shown := fun a k => absurd k (hload a)
    accepts_iff := by simp [hparses, malformedGrammar]
    accepted := fun a t k => absurd k (hparses a _)
    rejected := fun a e k => absurd k (hparses a _)
    missingEndMarker_iff := by simp [hparses, hkind]
    undefinedNonterminal_iff := by simp [hparses, hkind]
    noProduction_iff := by simp [hparses, hkind]
    not_fallback := by simp [hkind]
    expected := by simp [malformedGrammar] }

theorem agree_of_parses (h : Parses grammar input a result) (line other : String) :
    Agree grammar input ((parsed a result).logged line) ((analyzed a).logged other) where
  blames_iff n := by
    constructor
    · intro hblames
      obtain ⟨e, -, hkind⟩ := errorType_parsed_iff.mp hblames.errorType
      exact absurd hkind (errorType_ne (by decide) e)
    · rintro ⟨m, hm, -⟩
      cases hm.symm.trans h.load
  blamed m hm := by cases hm.symm.trans h.load
  summary b hb := by
    obtain rfl : a = b := Except.ok.inj (h.load.symm.trans hb)
    exact ⟨rfl, rfl, fun name v => field?_parsed_of_analyzed⟩
  shown b hb := by
    obtain rfl : a = b := Except.ok.inj (h.load.symm.trans hb)
    have hsummary := showsSummary_analyzed a
    exact ⟨hsummary.mono fun _ _ => id, hsummary.mono fun _ _ => field?_parsed_of_analyzed⟩
  accepts_iff := by cases result <;> simp [h.iff, parsed]
  accepted b t hb := by
    obtain ⟨rfl, rfl⟩ := h.unique hb
    exact ⟨success_parsed, shows_parsed.logged line⟩
  rejected b e hb := by
    obtain ⟨rfl, rfl⟩ := h.unique hb
    exact ⟨rfl, success_parsed, shows_parsed.logged line, error_parsed b e⟩
  missingEndMarker_iff := by
    rw [Response.field?_logged, errorType_parsed_iff]
    rcases result with (_ | _ | _) | t <;> simp [h.iff, errorType]
  undefinedNonterminal_iff := by
    rw [Response.field?_logged, errorType_parsed_iff]
    rcases result with (_ | _ | _) | t <;> simp [h.iff, errorType]
  noProduction_iff := by
    rw [Response.field?_logged, errorType_parsed_iff]
    rcases result with (_ | _ | _) | t <;> simp [h.iff, errorType]
  not_fallback hfield := by
    obtain ⟨e, -, hkind⟩ := errorType_parsed_iff.mp hfield
    exact errorType_ne (by decide) e hkind
  expected := by cases result <;> simp [parsed, analyzed]

section Routes

variable {limit : Nat} {q : Request} {fields : Fields}

theorem Request.Posts.respond {route : Route} (h : q.Posts route fields)
    (hmethod : route.method = "POST") : Service.respond limit q = route.answer limit q := by
  rw [Service.respond, h.path]
  simp only [h.method, hmethod, if_true]

theorem Request.posts_of_read {route : Route} (hmethod : q.upperMethod = "POST")
    (hpath : Route.ofPath? q.path = some route) (htype : IsJsonType q.contentType)
    (hread : Json.read q.body = some (.obj fields)) (hne : fields ≠ []) : q.Posts route fields := by
  refine ⟨hmethod, hpath, ?_⟩
  simp [Request.data, htype, hread, Option.filter, Json.truthy, hne]

theorem Holds.required {name text : String} (h : Holds fields name text) :
    required fields name = some (.str text) := by
  simp [Service.required, h.given, Json.truthy, h.ne_empty]

theorem loadField_of_malformed {m : Malformed}
    (h : Analysis.load {} grammar = .error (.malformed m)) :
    loadField (.str grammar) = .error (malformedGrammar m) := by
  rw [loadField, h]
  rfl

theorem loadField_of_load (h : Analysis.load {} grammar = .ok a) :
    loadField (.str grammar) = .ok a := by
  rw [loadField, h]
  rfl

end Routes

/-- Two requests with the same grammar, which may hold other fields besides and stand in any form
that is read as these fields. -/
theorem answers_agree {limit : Nat} {q p : Request} {fields others : Fields}
    (hparse : q.Posts .parse fields) (hgrammar : Holds fields "grammar" grammar)
    (hinput : Holds fields "input" input) (hanalyze : p.Posts .analyze others)
    (hsame : Holds others "grammar" grammar)
    (hends : ∀ a, Analysis.load {} grammar = .ok a →
      ∃ result, a.parser.parse limit input = some result) :
    ∃ parsing analysis, respond limit q = some parsing ∧ respond limit p = some analysis ∧
      Agree grammar input parsing analysis := by
  rw [hparse.respond rfl, hanalyze.respond rfl]
  simp only [Route.answer, hparse.data, hanalyze.data, Service.parse, analyze, hgrammar.required,
    hinput.required, hsame.required]
  rcases Analysis.load_cases {} grammar with ⟨m, hload⟩ | ⟨a, hload⟩
  · simp only [loadField_of_malformed hload]
    exact ⟨_, _, rfl, rfl, agree_of_malformed hload _⟩
  · obtain ⟨result, hresult⟩ := hends a hload
    simp only [loadField_of_load hload, parseField, hresult]
    exact ⟨_, _, rfl, rfl, agree_of_parses ⟨hload, limit, hresult⟩ _ _⟩

/-- The input is stuck on its second character. One body escapes a character of the grammar and holds
an input that is no text. -/
theorem answers_agree_stuck :
    let q : Request :=
      { method := "post"
        path := "/ll1/parse"
        contentType := "application/json"
        body := "\x7b\"grammar\":\"S->aS|b\",\"input\":\"ax#\"\x7d" }
    let p : Request :=
      { method := "POST"
        path := "/ll1/analyze?all"
        contentType := "application/JSON; charset=utf-8"
        body := "\x7b\"input\": 1, \"grammar\": \"\\u0053->aS|b\"\x7d" }
    let fields : Fields := [("grammar", .str "S->aS|b"), ("input", .str "ax#")]
    let others : Fields := [("input", .int 1), ("grammar", .str "S->aS|b")]
    q.Posts .parse fields ∧ Holds fields "grammar" "S->aS|b" ∧ Holds fields "input" "ax#" ∧
      p.Posts .analyze others ∧ Holds others "grammar" "S->aS|b" ∧
      ∃ a e parsing analysis, Parses "S->aS|b" "ax#" a (.error e) ∧ e.trace.length = 3 ∧
        respond 9 q = some parsing ∧ respond 9 p = some analysis ∧
          Agree "S->aS|b" "ax#" parsing analysis := by
  intro q p fields others
  have hparse : q.Posts .parse fields :=
    Request.posts_of_read (by decide) (by decide) (by decide) (by cbv) (by simp [fields])
  have hanalyze : p.Posts .analyze others :=
    Request.posts_of_read (by decide) (by decide) (by decide) (by cbv) (by simp [others])
  have hgrammar : Holds fields "grammar" "S->aS|b" := ⟨rfl, by decide⟩
  have hinput : Holds fields "input" "ax#" := ⟨rfl, by decide⟩
  have hsame : Holds others "grammar" "S->aS|b" := ⟨rfl, by decide⟩
  obtain ⟨a, hload, hfails⟩ : ∃ a, Analysis.load {} "S->aS|b" = .ok a ∧
      ((a.parser.parse 9 "ax#").map fun r => (r.isOk, (Trace.ofResult r).length)) =
        some (false, 3) := by
    decide +kernel
  obtain ⟨_ | t, hresult, hpair⟩ := Option.map_eq_some_iff.mp hfails
  · next e =>
    have hends : ∀ b, Analysis.load {} "S->aS|b" = .ok b →
        ∃ result, b.parser.parse 9 "ax#" = some result := by
      intro b hb
      obtain rfl : a = b := Except.ok.inj (hload.symm.trans hb)
      exact ⟨_, hresult⟩
    obtain ⟨parsing, analysis, hfirst, hsecond, hagree⟩ :=
      answers_agree hparse hgrammar hinput hanalyze hsame hends
    exact ⟨hparse, hgrammar, hinput, hanalyze, hsame, a, e, parsing, analysis,
      ⟨hload, 9, hresult⟩, (Prod.mk.inj hpair).2, hfirst, hsecond, hagree⟩
  · cases hpair

end GrammarLab.Service
