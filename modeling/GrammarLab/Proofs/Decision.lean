import Mathlib
import GrammarLab.Proofs.Halting
import GrammarLab.Proofs.Trace

/-!
# Parsers without conflicts decide their language

The table of exact families makes the machine follow the derivation of a sentence wherever there is
one, if it has no conflicts. Together with halting this makes every parse end with the right
answer.
-/

namespace GrammarLab

namespace Grammar

variable {g : Grammar}

/-- The characters spell a form of terminals that the start symbol derives. -/
def Sentence (g : Grammar) (w : List Char) : Prop :=
  ∃ form, g.Generates form ∧ (∀ x ∈ form, x.IsTerminal) ∧
    form.map Symbol.text = w.map String.singleton

theorem Derives.cons_cases {x : Symbol} {below v : List Symbol} (h : g.Derives (x :: below) v)
    (hterminals : ∀ y ∈ v, y.IsTerminal) :
    (x.IsTerminal ∧ ∃ rest, v = x :: rest ∧ g.Derives below rest) ∨
      ∃ p ∈ g.productions, p.left = x ∧ x.IsVariable ∧
        ∃ c ∈ p.candidates, g.Derives (c.body ++ below) v := by
  have hform : g.Derives ([x] ++ below) v := h
  obtain ⟨us, vs, rfl, hus, hvs⟩ := hform.split
  generalize hx : [x] = xs at hus
  cases hus with
  | refl =>
    subst hx
    exact Or.inl ⟨hterminals x (by simp), vs, rfl, hvs⟩
  | head hstep hrest =>
    cases hstep with
    | @step p c before after hp hv hc =>
      obtain ⟨rfl, rfl, rfl⟩ := singleton_eq_split hx
      simp only [List.nil_append, List.append_nil] at hrest
      exact Or.inr ⟨p, hp, rfl, hv, c, hc, hrest.append hvs⟩

theorem WellFormed.mem_of_start_derives (hg : g.WellFormed) {x : Symbol} (hstart : g.start = some x)
    {v : List Symbol} (hd : g.Derives [x] v) : ∀ y ∈ v, y ∈ g.symbols.symbols := by
  refine hd.mem_table hg fun y hy => ?_
  rw [List.mem_singleton.mp hy]
  exact hg.start_mem x hstart

theorem WellFormed.mem_append_marker (hg : g.WellFormed) {v : List Symbol}
    (hv : ∀ y ∈ v, y ∈ g.symbols.symbols) : ∀ y ∈ v ++ [g.endMarker], y ∈ g.symbols.symbols := by
  intro y hy
  rcases List.mem_append.mp hy with hy | hy
  · exact hv y hy
  · rw [List.mem_singleton.mp hy]
    exact hg.end_mem

end Grammar

namespace Solver

/-- The stack derives what remains before the end marker, and is covered. -/
structure Viable (g : Grammar) (s : State) (v : List Symbol) (k : Configuration) : Prop where
  remaining : k.remaining = v ++ [g.endMarker]
  derives : g.Derives k.above v
  terminals : ∀ x ∈ v, x.IsTerminal ∧ x ∈ g.symbols.symbols
  covered : Covered g s.first s.follow (· = g.endMarker) k.above

section Machine

variable {g : Grammar} {s : State} (hg : g.WellFormed) (hs : Solved g true s)
  (hconflicts : (tableOf g s).conflicts = [])

include hg hs

theorem nextIn_of_derives {above v rest : List Symbol} {a : Symbol} (hd : g.Derives above v)
    (hterminals : ∀ x ∈ v, x.IsTerminal ∧ x ∈ g.symbols.symbols)
    (hremaining : v ++ [g.endMarker] = a :: rest) :
    NextIn g s.first (· = g.endMarker) above a := by
  cases v with
  | nil =>
    obtain ⟨rfl, -⟩ := List.cons.inj hremaining
    have hnull := firstOf_of_derives hg hs.first.solves hd (Family.mem_firstOf_nil.mpr rfl)
    exact Or.inr ⟨hnull, rfl⟩
  | cons b v =>
    obtain ⟨rfl, -⟩ := List.cons.inj hremaining
    obtain ⟨ht, hmem⟩ := hterminals b List.mem_cons_self
    obtain ⟨hfirst, hne⟩ := hs.first.solves.mem_firstOf_terminal hg hmem ht v
    exact Or.inl ⟨firstOf_of_derives hg hs.first.solves hd hfirst, hne⟩

include hconflicts

theorem lookup_of_derives {p : Production} {c : Candidate} (hp : p ∈ g.productions)
    (hc : c ∈ p.candidates) {after v rest : List Symbol} {a : Symbol}
    (hcovered : Covered g s.first s.follow (· = g.endMarker) (p.left :: after))
    (hd : g.Derives (c.body ++ after) v)
    (hv : ∀ y ∈ v, y.IsTerminal ∧ y ∈ g.symbols.symbols)
    (hnext : v ++ [g.endMarker] = a :: rest) : (tableOf g s).lookup p.left a = some c := by
  have hcomes := nextIn_of_derives hg hs hd hv hnext
  have hselected := selecting_of_nextIn hg hs.first.solves hp hc hcovered hcomes
  exact lookup_of_selecting hconflicts hp hc hselected

/-- A move from a viable configuration leads to acceptance or to a viable configuration. -/
theorem leads_of_viable {k : Configuration} (hk : ∃ v, Viable g s v k) :
    ((tableOf g s).move g.endMarker k).Leads fun next => ∃ v, Viable g s v next := by
  obtain ⟨above, remaining⟩ := k
  obtain ⟨v, rfl, hd, hterminals, hcovered⟩ := hk
  cases above with
  | nil =>
    obtain rfl : v = [] := hd.eq_of_terminals fun x hx => absurd hx List.not_mem_nil
    have hmove : (tableOf g s).move g.endMarker ⟨[], [g.endMarker]⟩ = .accept := if_pos rfl
    rw [List.nil_append, hmove]
    trivial
  | cons x below =>
    rcases hd.cons_cases fun y hy => (hterminals y hy).1 with
      ⟨ht, rest, rfl, hrest⟩ | ⟨p, hp, rfl, hv, c, hc, hbody⟩
    · rw [List.cons_append, ParsingTable.move_consume ht]
      exact ⟨rest, rfl, hrest, fun y hy => hterminals y (List.mem_cons_of_mem _ hy),
        hcovered.of_append [x]⟩
    · obtain ⟨a, rest, hremaining⟩ := List.exists_cons_of_ne_nil
        (List.append_ne_nil_of_right_ne_nil v (List.cons_ne_nil g.endMarker []))
      have hcell := lookup_of_derives hg hs hconflicts hp hc hcovered hbody hterminals hremaining
      have hstep : g.Produces (p.left :: below) (c.body ++ below) := .step [] below hp hv hc
      rw [hremaining, ParsingTable.move_derive (fun hmatch => hv.not_terminal hmatch.1) hcell]
      exact ⟨v, hremaining.symm, hbody, hterminals,
        hcovered.produces hg hs.first.solves hs.follow hstep⟩

theorem accepted_of_derives {x : Symbol} {v : List Symbol} {r : Run} (hstart : g.start = some x)
    (hd : g.Derives [x] v) (hterminals : ∀ y ∈ v, y.IsTerminal)
    (h : (tableOf g s).Runs g.endMarker ⟨[x], v ++ [g.endMarker]⟩ r) :
    r.verdict = .accepted := by
  have hknown : ∀ y ∈ v, y.IsTerminal ∧ y ∈ g.symbols.symbols :=
    fun y hy => ⟨hterminals y hy, hg.mem_of_start_derives hstart hd y hy⟩
  have hviable : Viable g s v ⟨[x], v ++ [g.endMarker]⟩ :=
    ⟨rfl, hd, hknown, covered_start hs.follow hstart⟩
  exact h.accepted_of_leads (fun _ hk => leads_of_viable hg hs hconflicts hk) ⟨v, hviable⟩

omit hs hconflicts in
theorem derives_of_accepted (hv : g.LeftsVariable) {x : Symbol} {v : List Symbol} {r : Run}
    (h : (tableOf g s).Runs g.endMarker ⟨[x], v ++ [g.endMarker]⟩ r)
    (haccepted : r.verdict = .accepted) : g.Derives [x] v ∧ ∀ y ∈ v, y.IsTerminal := by
  have hfaithful := Trace.faithful_of_runs h (follows_of_runs hg h)
  obtain ⟨before, last, hsplit, hlast⟩ := h.success_of_accepted haccepted
  obtain ⟨form, hform, -, hd⟩ := hfaithful.success before last hsplit hlast
  obtain ⟨us, hus, hterminals⟩ := h.terminals_of_accepted haccepted
  obtain rfl : v = form := List.append_cancel_right hform
  obtain rfl : v = us := List.append_cancel_right hus
  exact ⟨hd hv, hterminals⟩

end Machine

end Solver

/-- Every parse of the string with the marker behind it ends within some number of moves, and its
result tells whether the string is a sentence. -/
structure Parser.Decides (p : Parser) (marker w : String) : Prop where
  ends : ∃ limit r, p.parse limit (w ++ marker) = some r
  accepts : ∀ limit t, p.parse limit (w ++ marker) = some (.ok t) →
    p.grammar.Sentence w.toList ∧ ∃ before s, t = before ++ [s] ∧ s.action = .accept
  rejects : ∀ limit e, p.parse limit (w ++ marker) = some (.error e) →
    ¬p.grammar.Sentence w.toList ∧
      ∃ x a t, e = .undefinedNonterminal x a t ∨ e = .noProduction x a t

theorem Run.result_eq_ok {r : Run} {t : Trace} (h : r.result = .ok t) :
    r.verdict = .accepted ∧ r.trace = t := by
  obtain ⟨trace, verdict⟩ := r
  cases verdict with
  | accepted => exact ⟨rfl, Except.ok.inj h⟩
  | rejected cause => cases cause <;> cases h

theorem Run.result_eq_error {r : Run} {e : ParseError} (h : r.result = .error e) :
    r.verdict ≠ .accepted ∧ ∃ x a t, e = .undefinedNonterminal x a t ∨ e = .noProduction x a t := by
  obtain ⟨trace, verdict⟩ := r
  cases verdict with
  | accepted => cases h
  | rejected cause =>
    refine ⟨nofun, cause.symbol, cause.lookahead, trace, ?_⟩
    cases cause with
    | undefined => exact Or.inl (Except.error.inj h).symm
    | noEntry => exact Or.inr (Except.error.inj h).symm

theorem Parser.sentence_iff {p : Parser} (hg : p.grammar.WellFormed) {x : Symbol}
    (hstart : p.grammar.start = some x) {w : List Char} {m : Char}
    (hm : p.grammar.endMarker.text = String.singleton m) {us : List Symbol}
    (hsplit : (p.prepare (w ++ [m])).1 = us ++ [p.grammar.endMarker])
    (hus : us.map Symbol.text = w.map String.singleton) :
    p.grammar.Sentence w ↔ p.grammar.Derives [x] us ∧ ∀ u ∈ us, u.IsTerminal := by
  constructor
  · rintro ⟨form, ⟨y, hy, hd⟩, hterminals, hspelled⟩
    obtain rfl : y = x := Option.some.inj (hy.symm.trans hstart)
    have hknown := hg.mem_append_marker (hg.mem_of_start_derives hstart hd)
    have hinput : (p.prepare (w ++ [m])).1 = form ++ [p.grammar.endMarker] := by
      apply prepare_eq_of_spelling hg.table hknown
      simp [hspelled, hm]
    obtain rfl : us = form := List.append_cancel_right (hsplit.symm.trans hinput)
    exact ⟨hd, hterminals⟩
  · rintro ⟨hd, hterminals⟩
    exact ⟨us, ⟨x, hstart, hd⟩, hterminals, hus⟩

theorem Solver.decides {g : Grammar} {s : Solver.State} (hg : g.WellFormed) (hv : g.LeftsVariable)
    (hs : Solved g true s) (hconflicts : (tableOf g s).conflicts = []) {x : Symbol}
    (hstart : g.start = some x) {m : Char} (hm : g.endMarker.text = String.singleton m)
    (startText w : String) :
    Parser.Decides ⟨g, tableOf g s, startText⟩ (String.singleton m) w := by
  let p : Parser := ⟨g, tableOf g s, startText⟩
  have hinput : (w ++ String.singleton m).toList = w.toList ++ [m] := by simp
  have hend : p.EndsWithMarker (w ++ String.singleton m).toList := by
    rw [hinput]
    exact Parser.endsWithMarker_append hm w.toList
  obtain ⟨us, hinitial, hsplit, hus⟩ :=
    Parser.initial_append_marker (p := p) hg.table hg.end_mem hstart hm w.toList
  have hsentence := Parser.sentence_iff (p := p) hg hstart hm hsplit hus
  rw [← hinput] at hinitial
  have hanswer : ∀ r, (tableOf g s).Runs g.endMarker ⟨[x], us ++ [g.endMarker]⟩ r →
      (r.verdict = .accepted ↔ g.Sentence w.toList) := by
    intro r hr
    constructor
    · intro haccepted
      exact hsentence.mpr (derives_of_accepted hg hv hr haccepted)
    · intro hw
      obtain ⟨hd, hterminals⟩ := hsentence.mp hw
      exact accepted_of_derives hg hs hconflicts hstart hd hterminals hr
  constructor
  · obtain ⟨r, hr⟩ := halts hg hv hs hconflicts ⟨[x], us ++ [g.endMarker]⟩
    rw [← hinitial] at hr
    obtain ⟨limit, hparse⟩ := Parser.exists_parse_of_runs hend hr
    exact ⟨limit, _, hparse⟩
  · intro limit t hparse
    obtain ⟨r, hr, hresult⟩ := Parser.runs_of_parse hend hparse
    obtain ⟨haccepted, rfl⟩ := Run.result_eq_ok hresult.symm
    rw [hinitial] at hr
    exact ⟨(hanswer r hr).mp haccepted, hr.success_of_accepted haccepted⟩
  · intro limit e hparse
    obtain ⟨r, hr, hresult⟩ := Parser.runs_of_parse hend hparse
    obtain ⟨hrejected, herror⟩ := Run.result_eq_error hresult.symm
    rw [hinitial] at hr
    exact ⟨fun hw => hrejected ((hanswer r hr).mpr hw), herror⟩

/-- The analysis of a grammar without conflicts decides its language, if FIRST and FOLLOW are
iterated, the end marker is one character, all left symbols are variables and the grammar knows its
start symbol. -/
theorem Analysis.parser_decides {config : GrammarConfig} {text : String} {g : Grammar}
    (hfix : config.fixpoint = true) (hread : Grammar.read config text = .ok g)
    (hv : g.LeftsVariable) {x : Symbol} (hstart : g.start = some x) {m : Char}
    (hmarker : config.endMarker = String.singleton m) :
    ∃ a, Analysis.load config text = .ok a ∧ a.grammar = g ∧
      (a.table.conflicts = [] → ∀ w : String, a.parser.Decides config.endMarker w) := by
  have hg := Grammar.wellFormed_of_read hread
  have hm : g.endMarker.text = String.singleton m :=
    (Grammar.endMarker_of_read hread).trans hmarker
  obtain ⟨a, hload, -, hgrammar, hs, htable⟩ := Analysis.exists_load hread
  rw [hfix] at hs
  refine ⟨a, hload, hgrammar, fun hconflicts w => ?_⟩
  rw [htable] at hconflicts
  rw [parser, hgrammar, htable, hmarker]
  exact Solver.decides hg hv hs hconflicts hstart hm _ w

/-- Nested brackets around a candidate that can be empty. -/
theorem Analysis.parser_decides_nested :
    ∃ g x a, Grammar.read {} "S->aSb|$" = .ok g ∧ g.LeftsVariable ∧ g.start = some x ∧
      Analysis.load {} "S->aSb|$" = .ok a ∧ a.table.conflicts = [] ∧
        ∀ w : String, a.parser.Decides "#" w := by
  obtain ⟨g, hg, hv, hknown⟩ : ∃ g, Grammar.read {} "S->aSb|$" = .ok g ∧ g.LeftsVariable ∧
      g.start.isSome := by decide +kernel
  obtain ⟨x, hstart⟩ := Option.isSome_iff_exists.mp hknown
  obtain ⟨a, ha, -, hdecides⟩ := parser_decides (m := '#') rfl hg hv hstart rfl
  obtain ⟨b, hb, hconflicts⟩ : ∃ b, Analysis.load {} "S->aSb|$" = .ok b ∧
      b.table.conflicts = [] := by decide +kernel
  obtain rfl : b = a := Except.ok.inj (hb.symm.trans ha)
  exact ⟨g, x, b, hg, hv, hstart, ha, hconflicts, hdecides hconflicts⟩

end GrammarLab
