import Mathlib
import GrammarLab.Session
import GrammarLab.Proofs.Table

/-!
# The state of a session and its history

After any commands, a session is known from its history alone. Its analysis is that of a session
freshly started with the text accepted last, and its remembered trace is that of the last run since
then, if this run failed. Parses answer as in the fresh session, and a malformed load is as if it
had not been asked for.
-/

namespace GrammarLab

theorem Analysis.config_of_load {config : GrammarConfig} {text : String} {a : Analysis}
    (h : Analysis.load config text = .ok a) : a.config = config := by
  cases hread : Grammar.read config text with
  | error m =>
    rw [load, hread] at h
    cases h
  | ok g =>
    obtain ⟨b, hb, hconfig, -⟩ := exists_load hread
    obtain rfl : b = a := Except.ok.inj (hb.symm.trans h)
    exact hconfig

namespace Session

def Command.accepted (config : GrammarConfig) : Command → Option String
  | .load text => (Grammar.read config text).toOption.map fun _ => text
  | .parse _ => none

/-- The text accepted last. The session starts with the first one. -/
def loadedText (config : GrammarConfig) (first : String) (commands : List Command) : String :=
  (commands.reverse.findSome? (Command.accepted config)).getD first

/-- The result of a parse that had an end marker to run to. -/
def Answer.outcome : Answer → Option (Except ParseError Trace)
  | .loaded _ => none
  | .parsed (.error (.missingEndMarker _)) => none
  | .parsed r => some r

def Answer.Renews : Answer → Prop
  | .loaded (.ok _) => True
  | _ => False

instance : (a : Answer) → Decidable a.Renews
  | .loaded (.ok _) => inferInstanceAs (Decidable True)
  | .loaded (.error _) => inferInstanceAs (Decidable False)
  | .parsed _ => inferInstanceAs (Decidable False)

def latestOutcome (answers : List Answer) : Option (Except ParseError Trace) :=
  (answers.reverse.takeWhile fun a => ¬a.Renews).findSome? Answer.outcome

def failureTrace : Option (Except ParseError Trace) → Trace
  | some (.error e) => e.trace
  | _ => []

theorem loadedText_append_singleton (config : GrammarConfig) (first : String)
    (commands : List Command) (c : Command) :
    loadedText config first (commands ++ [c]) =
      (c.accepted config).getD (loadedText config first commands) := by
  rw [loadedText, List.reverse_concat, List.findSome?_cons]
  cases c.accepted config <;> rfl

theorem latestOutcome_append_singleton (answers : List Answer) (a : Answer) :
    latestOutcome (answers ++ [a]) =
      if a.Renews then none else a.outcome.or (latestOutcome answers) := by
  rw [latestOutcome, List.reverse_concat, List.takeWhile_cons]
  by_cases h : a.Renews
  · simp [h]
  · simp only [h, not_false_eq_true, decide_true, if_true, if_false, List.findSome?_cons]
    cases a.outcome <;> rfl

variable {config : GrammarConfig} {first : String} {commands : List Command}
  {answers : List Answer} {s t : Session}

/-- What the history says about the state reached. -/
structure Tracks (config : GrammarConfig) (first : String) (commands : List Command)
    (answers : List Answer) (s : Session) : Prop where
  analysis : Analysis.load config (loadedText config first commands) = .ok s.analysis
  lastPartial : s.lastPartial = failureTrace (latestOutcome answers)

theorem start_eq_ok : start config first = .ok s ↔
    Analysis.load config first = .ok s.analysis ∧ s.lastPartial = [] := by
  obtain ⟨a, last⟩ := s
  cases hload : Analysis.load config first with
  | ok b => simp [start, hload, Except.map, eq_comm]
  | error e => simp [start, hload, Except.map]

theorem Tracks.of_start (h : start config first = .ok s) : Tracks config first [] [] s := by
  obtain ⟨hload, hlast⟩ := start_eq_ok.mp h
  exact ⟨hload, hlast⟩

theorem Tracks.start (h : Tracks config first commands answers s) :
    ∃ f, Session.start config (loadedText config first commands) = .ok f ∧
      s.analysis = f.analysis :=
  ⟨⟨s.analysis, []⟩, start_eq_ok.mpr ⟨h.analysis, rfl⟩, rfl⟩

theorem load_of_malformed {text : String} {m : Malformed}
    (h : Grammar.read s.analysis.config text = .error m) :
    s.load text = (.error (.malformed m), s) := by
  rw [load, Analysis.load, h]

theorem load_of_read {text : String} {g : Grammar}
    (h : Grammar.read s.analysis.config text = .ok g) :
    ∃ a, Analysis.load s.analysis.config text = .ok a ∧ s.load text = (.ok g, ⟨a, []⟩) := by
  obtain ⟨a, hload, -, hgrammar, -⟩ := Analysis.exists_load h
  exact ⟨a, hload, by rw [load, hload, ← hgrammar]⟩

theorem run_parse {limit : Nat} {input : String} {a : Answer}
    (h : s.run limit (.parse input) = some (a, t)) :
    ∃ r, s.analysis.parser.parse limit input = some r ∧ a = .parsed r ∧
      t = { s with lastPartial := Parser.remember s.lastPartial r } := by
  obtain ⟨⟨r, u⟩, hparse, heq⟩ := Option.map_eq_some_iff.mp h
  obtain ⟨r', hr', hpair⟩ := Option.map_eq_some_iff.mp hparse
  cases hpair
  cases heq
  exact ⟨r, hr', rfl, rfl⟩

theorem failureTrace_parsed (r : Except ParseError Trace) (o : Option (Except ParseError Trace)) :
    failureTrace ((Answer.parsed r).outcome.or o) = Parser.remember (failureTrace o) r := by
  cases r with
  | ok => rfl
  | error e => cases e <;> rfl

theorem Tracks.run (h : Tracks config first commands answers s) {limit : Nat} {c : Command}
    {a : Answer} (hrun : s.run limit c = some (a, t)) :
    Tracks config first (commands ++ [c]) (answers ++ [a]) t := by
  have hconfig := Analysis.config_of_load h.analysis
  cases c with
  | load text =>
    cases hread : Grammar.read config text with
    | error m =>
      have hload : s.load text = _ := load_of_malformed (hconfig ▸ hread)
      rw [Session.run, hload] at hrun
      cases hrun
      constructor
      · rw [loadedText_append_singleton, Command.accepted, hread]
        exact h.analysis
      · rw [latestOutcome_append_singleton]
        exact h.lastPartial
    | ok g =>
      obtain ⟨b, hb, hload⟩ := load_of_read (s := s) (hconfig ▸ hread)
      rw [Session.run, hload] at hrun
      cases hrun
      constructor
      · rw [loadedText_append_singleton, Command.accepted, hread, ← hconfig]
        exact hb
      · rw [latestOutcome_append_singleton]
        rfl
  | parse input =>
    obtain ⟨r, -, rfl, rfl⟩ := run_parse hrun
    constructor
    · rw [loadedText_append_singleton]
      exact h.analysis
    · have hkept : ¬(Answer.parsed r).Renews := id
      rw [latestOutcome_append_singleton, if_neg hkept, failureTrace_parsed, ← h.lastPartial]

/-- Commands performed in order, each parse within as many moves as it takes. -/
inductive Performs : Session → List Command → List Answer → Session → Prop where
  | nil (s : Session) : Performs s [] [] s
  | cons {s t u : Session} {limit : Nat} {c : Command} {a : Answer} {commands : List Command}
      {answers : List Answer} : s.run limit c = some (a, t) → Performs t commands answers u →
        Performs s (c :: commands) (a :: answers) u

theorem run_mono {limit more : Nat} (h : limit ≤ more) {c : Command} {p : Answer × Session}
    (hp : s.run limit c = some p) : s.run more c = some p := by
  cases c with
  | load => exact hp
  | parse input =>
    obtain ⟨_, hparse, rfl⟩ := Option.map_eq_some_iff.mp hp
    obtain ⟨r, hr, rfl⟩ := Option.map_eq_some_iff.mp hparse
    rw [run, parse, s.analysis.parser.parse_mono h hr]
    rfl

theorem runAll_cons {limit : Nat} {c : Command} {p : List Answer × Session} :
    s.runAll limit (c :: commands) = some p ↔ ∃ a t, s.run limit c = some (a, t) ∧
      ∃ as u, t.runAll limit commands = some (as, u) ∧ (a :: as, u) = p := by
  simp [runAll, Option.bind_eq_some_iff]

theorem runAll_mono {limit more : Nat} (h : limit ≤ more) {p : List Answer × Session}
    (hp : s.runAll limit commands = some p) : s.runAll more commands = some p := by
  induction commands generalizing s p with
  | nil => exact hp
  | cons c commands ih =>
    obtain ⟨a, t, hrun, as, u, hrest, rfl⟩ := runAll_cons.mp hp
    exact runAll_cons.mpr ⟨a, t, run_mono h hrun, as, u, ih hrest, rfl⟩

theorem performs_iff :
    s.Performs commands answers t ↔ ∃ limit, s.runAll limit commands = some (answers, t) := by
  constructor
  · intro h
    induction h with
    | nil s => exact ⟨0, rfl⟩
    | @cons _ _ _ limit _ _ _ _ hrun _ ih =>
      obtain ⟨more, hrest⟩ := ih
      have hhere := run_mono (le_max_left limit more) hrun
      have hlater := runAll_mono (le_max_right limit more) hrest
      exact ⟨max limit more, runAll_cons.mpr ⟨_, _, hhere, _, _, hlater, rfl⟩⟩
  · rintro ⟨limit, h⟩
    induction commands generalizing s answers with
    | nil =>
      cases h
      exact .nil _
    | cons c commands ih =>
      obtain ⟨a, u, hrun, as, v, hrest, heq⟩ := runAll_cons.mp h
      cases heq
      exact .cons hrun (ih hrest)

theorem Performs.split {later : List Command} (h : s.Performs (commands ++ later) answers t) :
    ∃ as bs u, answers = as ++ bs ∧ s.Performs commands as u ∧ u.Performs later bs t := by
  induction commands generalizing s answers with
  | nil => exact ⟨[], answers, s, rfl, .nil s, h⟩
  | cons c commands ih =>
    cases h with
    | cons hrun hrest =>
      obtain ⟨as, bs, u, rfl, hbefore, hafter⟩ := ih hrest
      exact ⟨_ :: as, bs, u, rfl, .cons hrun hbefore, hafter⟩

theorem Tracks.performs {past : List Command} {said : List Answer}
    (h : Tracks config first past said s) (hp : s.Performs commands answers t) :
    Tracks config first (past ++ commands) (said ++ answers) t := by
  induction hp generalizing past said with
  | nil => simpa using h
  | cons hrun _ ih => simpa using ih (h.run hrun)

/-- A session that began with the first text, and has performed the commands with these answers. -/
structure Lawful (config : GrammarConfig) (first : String) (s : Session) (commands : List Command)
    (answers : List Answer) (t : Session) : Prop where
  /-- The whole analysis, and so summary, symbols and parsing table, is that of a fresh session. -/
  fresh : ∃ f, start config (loadedText config first commands) = .ok f ∧ t.analysis = f.analysis
  /-- So is each answer to a parse. -/
  parses : ∀ before input after, commands = before ++ .parse input :: after →
    ∃ as r bs u, answers = as ++ .parsed r :: bs ∧ s.Performs before as u ∧
      ∃ f limit g, start config (loadedText config first before) = .ok f ∧
        f.parse limit input = some (r, g)
  /-- The session after a malformed load is the very one before it. -/
  malformed : ∀ before text after m, commands = before ++ .load text :: after →
    Grammar.read config text = .error m →
      ∃ as bs u, answers = as ++ .loaded (.error (.malformed m)) :: bs ∧
        s.Performs before as u ∧ u.Performs after bs t
  lastPartial : t.lastPartial = failureTrace (latestOutcome answers)

/-- Loads and parses in any order, whether they succeed or fail. -/
theorem lawful_of_performs (hstart : start config first = .ok s)
    (h : s.Performs commands answers t) : Lawful config first s commands answers t := by
  have hfirst := Tracks.of_start hstart
  have hlast := hfirst.performs h
  refine ⟨hlast.start, ?_, ?_, hlast.lastPartial⟩
  · rintro before input after rfl
    obtain ⟨as, bs, u, rfl, hbefore, hafter⟩ := h.split
    cases hafter with
    | @cons _ _ _ limit _ _ _ _ hrun _ =>
      obtain ⟨r, hr, rfl, -⟩ := run_parse hrun
      obtain ⟨f, hf, hsame⟩ := (hfirst.performs hbefore).start
      rw [hsame] at hr
      exact ⟨as, r, _, u, rfl, hbefore, f, limit, _, hf, Option.map_eq_some_iff.mpr ⟨r, hr, rfl⟩⟩
  · rintro before text after m rfl hread
    obtain ⟨as, bs, u, rfl, hbefore, hafter⟩ := h.split
    cases hafter with
    | cons hrun hrest =>
      have hconfig := Analysis.config_of_load (hfirst.performs hbefore).analysis
      have hload : u.load text = _ := load_of_malformed (hconfig ▸ hread)
      rw [run, hload] at hrun
      cases hrun
      exact ⟨as, _, u, rfl, hbefore, hrest⟩

/-- Three kinds of failed parses, a malformed load before and after a new grammar, and a failed
parse that is remembered to the end. -/
theorem lawful_of_performs_mixed :
    let commands : List Command := [.parse "ab#", .parse "xb#", .load "S=a", .parse "ab",
      .load "S->cT", .parse "cd#", .load "d", .parse "c"]
    ∃ s answers t, start {} "S->aS|b" = .ok s ∧ s.Performs commands answers t ∧
      t.lastPartial.length = 3 ∧ Lawful {} "S->aS|b" s commands answers t := by
  intro commands
  obtain ⟨s, hs, hends⟩ : ∃ s, start {} "S->aS|b" = .ok s ∧
      ((s.runAll 10 commands).map fun p => p.2.lastPartial.length) = some 3 := by
    decide +kernel
  obtain ⟨⟨answers, t⟩, hrun, hlength⟩ := Option.map_eq_some_iff.mp hends
  have hperforms := performs_iff.mpr ⟨10, hrun⟩
  exact ⟨s, answers, t, hs, hperforms, hlength, lawful_of_performs hs hperforms⟩

end Session

end GrammarLab
