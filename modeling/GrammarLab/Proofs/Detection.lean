import Mathlib
import GrammarLab.Proofs.Decision

/-!
# Where a failing parse stops

A failing run reaches the configuration in which it is stuck by matches and replacements. The
symbols matched by then and the lookahead decide the whole way, so on every input that begins alike
the machine goes the same way and is stuck too. Without conflicts no sentence begins so. What was
matched, with the stack behind it, is derived from the start symbol; if variables are productive
it can be completed to a sentence.
-/

namespace GrammarLab

namespace ParsingTable

/-- Matches and replacements lead from one configuration to another; the symbols are those matched
on the way. -/
inductive Reaches (t : ParsingTable) : Configuration → List Symbol → Configuration → Prop where
  | refl (k : Configuration) : Reaches t k [] k
  | consume {s : Symbol} {below rest us : List Symbol} {k : Configuration} :
      s.IsTerminal → Reaches t ⟨below, rest⟩ us k → Reaches t ⟨s :: below, s :: rest⟩ (s :: us) k
  | derive {s a : Symbol} {c : Candidate} {below rest us : List Symbol} {k : Configuration} :
      ¬(s.IsTerminal ∧ s = a) → t.lookup s a = some c →
        Reaches t ⟨c.body ++ below, a :: rest⟩ us k → Reaches t ⟨s :: below, a :: rest⟩ us k

variable {t : ParsingTable} {e : Symbol} {k stop : Configuration} {us : List Symbol}

theorem Reaches.remaining_eq (h : t.Reaches k us stop) : k.remaining = us ++ stop.remaining := by
  induction h with
  | refl => rfl
  | consume _ _ ih => exact congrArg _ ih
  | derive _ _ _ ih => exact ih

theorem Reaches.terminals (h : t.Reaches k us stop) : ∀ u ∈ us, u.IsTerminal := by
  induction h with
  | refl => exact fun u hu => absurd hu List.not_mem_nil
  | consume hs _ ih =>
    intro u hu
    rcases List.mem_cons.mp hu with rfl | hu
    · exact hs
    · exact ih u hu
  | derive _ _ _ ih => exact ih

theorem Reaches.run (h : t.Reaches k us stop) {r : Run} (hr : t.Runs e stop r) :
    ∃ whole, t.Runs e k whole ∧ whole.verdict = r.verdict := by
  induction h with
  | refl => exact ⟨r, hr, rfl⟩
  | consume hs _ ih =>
    obtain ⟨whole, hwhole, hverdict⟩ := ih hr
    exact ⟨_, .consume hs hwhole, hverdict⟩
  | derive hmatch hcell _ ih =>
    obtain ⟨whole, hwhole, hverdict⟩ := ih hr
    exact ⟨_, .derive hmatch hcell hwhole, hverdict⟩

theorem Reaches.of_lookahead (h : t.Reaches k us stop) {a : Symbol} {rest : List Symbol}
    (hstop : stop.remaining = a :: rest) (other : List Symbol) :
    t.Reaches ⟨k.above, us ++ a :: other⟩ us ⟨stop.above, a :: other⟩ := by
  induction h with
  | refl => exact .refl _
  | consume hs _ ih => exact .consume hs (ih hstop)
  | @derive s b c below tail us stop hmatch hcell hrest ih =>
    have hinput : b :: tail = us ++ a :: rest := hstop ▸ hrest.remaining_eq
    -- This move looked at the first symbol that was matched later, or at the last lookahead.
    obtain ⟨next, hnext⟩ : ∃ next, us ++ a :: other = b :: next := by
      cases us with
      | nil => exact ⟨other, congrArg (· :: other) (List.cons.inj hinput).1.symm⟩
      | cons u us => exact ⟨us ++ a :: other, congrArg (· :: _) (List.cons.inj hinput).1.symm⟩
    have hway := ih hstop
    rw [hnext] at hway ⊢
    exact .derive hmatch hcell hway

theorem Runs.exists_stop {r : Run} (h : t.Runs e k r) (hrejected : r.verdict ≠ .accepted) :
    ∃ us stop cause before, t.Reaches k us stop ∧ t.move e stop = .stuck cause ∧
      r.trace = before ++
        [⟨stop.stack e, stop.remaining, .stuck cause.symbol cause.lookahead⟩] := by
  induction h with
  | consume hs _ ih =>
    obtain ⟨us, stop, cause, before, hreach, hmove, htrace⟩ := ih hrejected
    exact ⟨_ :: us, stop, cause, _ :: before, .consume hs hreach, hmove, congrArg (_ :: ·) htrace⟩
  | derive hmatch hcell _ ih =>
    obtain ⟨us, stop, cause, before, hreach, hmove, htrace⟩ := ih hrejected
    exact ⟨us, stop, cause, _ :: before, .derive hmatch hcell hreach, hmove,
      congrArg (_ :: ·) htrace⟩
  | accept => exact absurd rfl hrejected
  | @stuck k cause hmove => exact ⟨[], k, cause, [], .refl k, hmove, rfl⟩

theorem lookahead_of_stuck {above rest : List Symbol} {a : Symbol} {cause : Cause}
    (h : t.move e ⟨above, a :: rest⟩ = .stuck cause) : cause.lookahead = a := by
  cases above with
  | nil =>
    simp only [move] at h
    split at h
    · cases h
    · cases h
      rfl
  | cons s below =>
    simp only [move] at h
    split at h
    · cases h
    · split at h
      · cases h
        rfl
      · split at h
        · cases h
          rfl
        · cases h

/-- Whether the machine is stuck depends on the first remaining symbol alone, except where the end
marker may be accepted. -/
theorem stuck_of_lookahead {above rest : List Symbol} {a : Symbol} {cause : Cause}
    (h : t.move e ⟨above, a :: rest⟩ = .stuck cause) (hend : above = [] → a ≠ e)
    (other : List Symbol) : ∃ cause, t.move e ⟨above, a :: other⟩ = .stuck cause := by
  rcases t.move_cases e ⟨above, a :: other⟩ with ⟨s, below, tail, hk, hs, -⟩ |
    ⟨s, b, c, below, tail, hk, hmatch, hcell, -⟩ | ⟨hk, -⟩ | hstuck
  · cases hk
    rw [move_consume hs] at h
    cases h
  · cases hk
    rw [move_derive hmatch hcell] at h
    cases h
  · cases hk
    exact absurd rfl (hend rfl)
  · exact hstuck

/-- The machine matches the symbols `us` and is then stuck with the lookahead `a`, which is not the
end marker where nothing else is on the stack. -/
def StuckAfter (t : ParsingTable) (e : Symbol) (k : Configuration) (us : List Symbol) (a : Symbol) :
    Prop :=
  ∃ above rest cause, t.Reaches k us ⟨above, a :: rest⟩ ∧
    t.move e ⟨above, a :: rest⟩ = .stuck cause ∧ (above = [] → a ≠ e)

theorem StuckAfter.exists_rejected {a : Symbol} (h : t.StuckAfter e k us a) {input : List Symbol}
    (hinput : us ++ [a] <+: input) :
    ∃ r, t.Runs e ⟨k.above, input⟩ r ∧ r.verdict ≠ .accepted := by
  obtain ⟨above, rest, cause, hreach, hstuck, hend⟩ := h
  obtain ⟨other, rfl⟩ := hinput
  rw [List.append_assoc, List.singleton_append]
  obtain ⟨late, hlate⟩ := stuck_of_lookahead hstuck hend other
  obtain ⟨whole, hwhole, hverdict⟩ := (hreach.of_lookahead rfl other).run (.stuck hlate)
  exact ⟨whole, hwhole, by simp [hverdict]⟩

end ParsingTable

namespace Grammar

variable {g : Grammar}

def Productive (g : Grammar) : Prop :=
  ∀ x ∈ g.symbols.symbols, x.IsVariable → ∃ v, g.Derives [x] v ∧ ∀ y ∈ v, y.IsTerminal

theorem Productive.exists_derives (h : g.Productive) {xs : List Symbol}
    (hxs : ∀ x ∈ xs, x ∈ g.symbols.symbols ∧ ¬x.IsEmpty) :
    ∃ v, g.Derives xs v ∧ ∀ y ∈ v, y.IsTerminal := by
  induction xs with
  | nil => exact ⟨[], .refl _, fun y hy => absurd hy List.not_mem_nil⟩
  | cons x rest ih =>
    obtain ⟨vs, hrest, hvs⟩ := ih fun y hy => hxs y (List.mem_cons_of_mem _ hy)
    obtain ⟨hmem, hne⟩ := hxs x List.mem_cons_self
    obtain ⟨us, hx, hus⟩ : ∃ us, g.Derives [x] us ∧ ∀ y ∈ us, y.IsTerminal := by
      by_cases hv : x.IsVariable
      · exact h x hmem hv
      · have ht := (Symbol.empty_or_terminal_of_not_variable hv).resolve_left hne
        exact ⟨[x], .refl _, fun y hy => List.mem_singleton.mp hy ▸ ht⟩
    refine ⟨us ++ vs, hx.append hrest, fun y hy => ?_⟩
    rcases List.mem_append.mp hy with hy | hy
    · exact hus y hy
    · exact hvs y hy

theorem Derives.not_mem {x y : Symbol} {form : List Symbol} (h : g.Derives [x] form)
    (hx : x.IsVariable) (hy : y.IsTerminal)
    (habsent : ∀ p ∈ g.productions, ∀ c ∈ p.candidates, y ∉ c) : y ∉ form := by
  intro hmem
  refine h.forall_mem (P := (· ≠ y)) ?_ ?_ y hmem rfl
  · intro p hp c hc z hz _ he
    exact habsent p hp c hc (he ▸ hz)
  · intro z hz he
    rw [List.mem_singleton.mp hz] at he
    exact hx.not_terminal (he ▸ hy)

/-- What is read before an error, and the character at which it is reported: no sentence goes on
so, and some sentence has come so far. -/
structure FirstError (g : Grammar) (marker c : List Char) (a : Char) : Prop where
  not_late : ∀ w, g.Sentence w → ¬c ++ [a] <+: w ++ marker
  not_early : g.Productive → ∃ w, g.Sentence w ∧ c <+: w

end Grammar

namespace Solver

open ParsingTable (Reaches)

section Machine

variable {g : Grammar} {s : State} {k stop : Configuration} {us : List Symbol}

theorem derives_of_reaches (hv : g.LeftsVariable) (h : (tableOf g s).Reaches k us stop) :
    g.Derives k.above (us ++ stop.above) := by
  induction h with
  | refl => exact .refl _
  | @consume x below _ us _ _ _ ih =>
    have hctx := ih.context [x] []
    simpa using hctx
  | @derive x a c below rest us stop _ hcell _ ih =>
    obtain ⟨p, hp, rfl, hc, -⟩ := selecting_of_lookup hcell
    exact .head (.step [] below hp (hv p hp) hc) ih

/-- Where the end marker is in no derived form, a rejecting run on an input that ends with it is
stuck before it has matched it. -/
theorem exists_stuckAfter_of_rejected (hv : g.LeftsVariable) {x : Symbol}
    (habsent : ∀ form, g.Derives [x] form → g.endMarker ∉ form) {xs : List Symbol}
    (hinside : g.endMarker ∉ xs) {r : Run}
    (h : (tableOf g s).Runs g.endMarker ⟨[x], xs ++ [g.endMarker]⟩ r)
    (hrejected : r.verdict ≠ .accepted) :
    ∃ us a rest, xs ++ [g.endMarker] = us ++ a :: rest ∧
      (tableOf g s).StuckAfter g.endMarker ⟨[x], xs ++ [g.endMarker]⟩ us a ∧
      (∀ y ∈ us, y.IsTerminal) ∧ (∃ above, g.Derives [x] (us ++ above)) ∧
      ∃ before last top, r.trace = before ++ [last] ∧ last.remaining = a :: rest ∧
        last.action = .stuck top a := by
  obtain ⟨us, ⟨above, remaining⟩, cause, before, hreach, hstuck, htrace⟩ := h.exists_stop hrejected
  have hinput : xs ++ [g.endMarker] = us ++ remaining := hreach.remaining_eq
  have hd : g.Derives [x] (us ++ above) := derives_of_reaches hv hreach
  have hunmatched : g.endMarker ∉ us := fun hmem => habsent _ hd (List.mem_append_left _ hmem)
  cases remaining with
  | nil =>
    rw [List.append_nil] at hinput
    exact absurd (hinput ▸ by simp) hunmatched
  | cons a rest =>
    rw [ParsingTable.lookahead_of_stuck hstuck] at htrace
    refine ⟨us, a, rest, hinput, ⟨above, rest, cause, hreach, hstuck, ?_⟩, hreach.terminals,
      ⟨above, hd⟩, before, _, cause.symbol, htrace, rfl, rfl⟩
    rintro rfl rfl
    -- The only end marker is the last symbol, and there the machine accepts.
    rcases append_eq_split hinput with ⟨mid, hxs, -⟩ | ⟨mid, -, hlast⟩
    · exact hinside (by simp [hxs])
    · obtain ⟨-, -, rfl⟩ := singleton_eq_split hlast
      have haccept : (tableOf g s).move g.endMarker ⟨[], [g.endMarker]⟩ = .accept := if_pos rfl
      rw [haccept] at hstuck
      cases hstuck

end Machine

end Solver

/-- The last row of a trace along an input: the parser is stuck with the characters `c` read and
the lookahead `a`. -/
def Trace.StuckAfter (t : Trace) (input c : List Char) (a : Char) : Prop :=
  ∃ before s x y rest, t = before ++ [s] ∧ s.action = .stuck x y ∧ y.text = String.singleton a ∧
    input = c ++ a :: rest ∧ s.remaining.map Symbol.text = (a :: rest).map String.singleton

theorem exists_cut_of_map_text {us rest : List Symbol} {a : Symbol} {input : List Char}
    (h : (us ++ a :: rest).map Symbol.text = input.map String.singleton) :
    ∃ c d tail, input = c ++ d :: tail ∧ us.map Symbol.text = c.map String.singleton ∧
      a.text = String.singleton d ∧ rest.map Symbol.text = tail.map String.singleton := by
  rw [List.map_append, List.map_cons] at h
  obtain ⟨c, after, hinput, hc, hafter⟩ := List.map_eq_append_iff.mp h.symm
  obtain ⟨d, tail, rfl, hd, htail⟩ := List.map_eq_cons_iff.mp hafter
  exact ⟨c, d, tail, hinput, hc.symm, hd.symm, htail.symm⟩

theorem exists_spelling {v : List Symbol} (h : ∀ y ∈ v, ∃ c, y.text = String.singleton c) :
    ∃ w : List Char, v.map Symbol.text = w.map String.singleton := by
  induction v with
  | nil => exact ⟨[], rfl⟩
  | cons y rest ih =>
    obtain ⟨c, hc⟩ := h y List.mem_cons_self
    obtain ⟨w, hw⟩ := ih fun z hz => h z (List.mem_cons_of_mem _ hz)
    exact ⟨c :: w, by rw [List.map_cons, List.map_cons, hc, hw]⟩

theorem not_mem_of_map_text {xs : List Symbol} {w : List Char} {y : Symbol} {m : Char}
    (h : xs.map Symbol.text = w.map String.singleton) (hy : y.text = String.singleton m)
    (hm : m ∉ w) : y ∉ xs := by
  intro hmem
  have htext := List.mem_map_of_mem (f := Symbol.text) hmem
  rw [h, hy] at htext
  obtain ⟨c, hc, he⟩ := List.mem_map.mp htext
  have hcm : c = m := by simpa using congrArg String.toList he
  exact hm (hcm ▸ hc)

section Characters

variable {g : Grammar} {x : Symbol} {m : Char}
  (hchars : ∀ y ∈ g.symbols.symbols, y.IsTerminal → ∃ c, y.text = String.singleton c)

include hchars

theorem Grammar.exists_sentence_of_derives (hg : g.WellFormed) (hstart : g.start = some x)
    (hx : x.IsVariable) (hproductive : g.Productive) {us above : List Symbol}
    (hd : g.Derives [x] (us ++ above)) (hus : ∀ y ∈ us, y.IsTerminal) {c : List Char}
    (hc : us.map Symbol.text = c.map String.singleton) : ∃ w, g.Sentence w ∧ c <+: w := by
  have hknown : ∀ y ∈ us ++ above, y ∈ g.symbols.symbols ∧ ¬y.IsEmpty := by
    refine hd.forall_mem (fun p hp c hc y hy hne => ⟨hg.candidate_mem p hp c hc y hy, hne⟩) ?_
    intro y hy
    rw [List.mem_singleton.mp hy]
    exact ⟨hg.start_mem x hstart, hx.not_empty⟩
  obtain ⟨v, habove, hv⟩ :=
    hproductive.exists_derives fun y hy => hknown y (List.mem_append_right _ hy)
  have hform : g.Derives [x] (us ++ v) := hd.trans ((Grammar.Derives.refl us).append habove)
  have hterminals : ∀ y ∈ us ++ v, y.IsTerminal := by
    intro y hy
    rcases List.mem_append.mp hy with hy | hy
    · exact hus y hy
    · exact hv y hy
  have hmem := hg.mem_of_start_derives hstart hform
  obtain ⟨w, hw⟩ := exists_spelling (v := v) fun y hy =>
    hchars y (hmem y (List.mem_append_right _ hy)) (hv y hy)
  refine ⟨c ++ w, ⟨us ++ v, ⟨x, hstart, hform⟩, hterminals, ?_⟩, List.prefix_append c w⟩
  rw [List.map_append, List.map_append, hc, hw]

end Characters

theorem Solver.not_isPrefix_sentence {g : Grammar} {s : Solver.State} {startText : String}
    (hg : g.WellFormed) (hs : Solved g true s) (hconflicts : (tableOf g s).conflicts = [])
    {x : Symbol} (hstart : g.start = some x) {m : Char}
    (hm : g.endMarker.text = String.singleton m) {input us : List Symbol} {a : Symbol}
    (hstuck : (tableOf g s).StuckAfter g.endMarker ⟨[x], input⟩ us a) {w : List Char}
    (hbegins : us ++ [a] <+: (Parser.prepare ⟨g, tableOf g s, startText⟩ w).1) {c : List Char}
    {d : Char} (hc : us.map Symbol.text = c.map String.singleton) (hd : a.text = String.singleton d) :
    ∀ w, g.Sentence w → ¬c ++ [d] <+: w ++ [m] := by
  rintro w ⟨v, ⟨y, hy, hderives⟩, hterminals, hw⟩ hprefix
  obtain rfl : y = x := Option.some.inj (hy.symm.trans hstart)
  have htext : (us ++ [a]).map Symbol.text <+: (v ++ [g.endMarker]).map Symbol.text := by
    have hmap := hprefix.map String.singleton
    simpa [hc, hd, hw, hm] using hmap
  have hknown := hg.mem_append_marker (hg.mem_of_start_derives hstart hderives)
  have hsymbols := Parser.isPrefix_of_spelling hg.table hbegins hknown htext
  obtain ⟨r, hr, hrejected⟩ := hstuck.exists_rejected hsymbols
  exact hrejected (accepted_of_derives hg hs hconflicts hstart hderives hterminals hr)

theorem Solver.exists_firstError {g : Grammar} {s : Solver.State} (hg : g.WellFormed)
    (hv : g.LeftsVariable) (hs : Solved g true s) (hconflicts : (tableOf g s).conflicts = [])
    {x : Symbol} (hstart : g.start = some x) (hx : x.IsVariable)
    (hterminal : g.endMarker.IsTerminal)
    (habsent : ∀ p ∈ g.productions, ∀ c ∈ p.candidates, g.endMarker ∉ c)
    {m : Char} (hm : g.endMarker.text = String.singleton m)
    (hchars : ∀ y ∈ g.symbols.symbols, y.IsTerminal → ∃ c, y.text = String.singleton c)
    {startText u : String} (hu : m ∉ u.toList) {limit : Nat} {err : ParseError}
    (hparse : Parser.parse ⟨g, tableOf g s, startText⟩ limit (u ++ String.singleton m) =
      some (.error err)) :
    ∃ c a, err.trace.StuckAfter (u.toList ++ [m]) c a ∧ g.FirstError [m] c a := by
  let p : Parser := ⟨g, tableOf g s, startText⟩
  have hinput : (u ++ String.singleton m).toList = u.toList ++ [m] := by simp
  have hend : p.EndsWithMarker (u ++ String.singleton m).toList := by
    rw [hinput]
    exact Parser.endsWithMarker_append hm u.toList
  obtain ⟨xs, hinitial, hxs, hspelled⟩ :=
    Parser.initial_append_marker (p := p) hg.table hg.end_mem hstart hm u.toList
  obtain ⟨r, hr, hresult⟩ := Parser.runs_of_parse hend hparse
  rw [hinput, hinitial] at hr
  have herr : err.trace = r.trace := by
    rw [← Trace.ofResult_result, ← hresult]
    rfl
  have hforms : ∀ form, g.Derives [x] form → g.endMarker ∉ form :=
    fun form hd => hd.not_mem hx hterminal habsent
  obtain ⟨us, a, rest, hcut, hstuck, hus, ⟨above, hd⟩, before, last, top, htrace, hrest,
    haction⟩ := exists_stuckAfter_of_rejected hv hforms (not_mem_of_map_text hspelled hm hu) hr
      (Run.result_eq_error hresult.symm).1
  have htexts : (us ++ a :: rest).map Symbol.text = (u.toList ++ [m]).map String.singleton := by
    rw [← hcut, List.map_append, List.map_append, hspelled]
    simp [hm]
  obtain ⟨c, d, tail, hsplit, hc, hd', htail⟩ := exists_cut_of_map_text htexts
  refine ⟨c, d, ⟨before, last, top, a, tail, herr.trans htrace, haction, hd', hsplit, ?_⟩, ?_, ?_⟩
  · rw [hrest, List.map_cons, List.map_cons, hd', htail]
  · have hbegins : us ++ [a] <+: (p.prepare (u.toList ++ [m])).1 := by
      rw [hxs, hcut]
      exact ⟨rest, by simp⟩
    exact not_isPrefix_sentence hg hs hconflicts hstart hm hstuck hbegins hc hd'
  · intro hproductive
    exact Grammar.exists_sentence_of_derives hchars hg hstart hx hproductive hd hus hc

/-- Errors are found neither late nor early by the analysis of a grammar without conflicts, if FIRST
and FOLLOW are iterated, all left symbols and the start symbol are variables, and the end marker is
a terminal of one character that stands in no candidate. -/
theorem Analysis.parser_stops_at_firstError {config : GrammarConfig} {text : String} {g : Grammar}
    (hfix : config.fixpoint = true) (hread : Grammar.read config text = .ok g)
    (hv : g.LeftsVariable) {x : Symbol} (hstart : g.start = some x) (hx : x.IsVariable) {m : Char}
    (hmarker : config.endMarker = String.singleton m) (hterminal : g.endMarker.IsTerminal)
    (habsent : ∀ p ∈ g.productions, ∀ c ∈ p.candidates, g.endMarker ∉ c) :
    ∃ a, Analysis.load config text = .ok a ∧ a.grammar = g ∧
      (a.table.conflicts = [] → ∀ (u : String) (limit : Nat) (err : ParseError), m ∉ u.toList →
        a.parser.parse limit (u ++ config.endMarker) = some (.error err) →
          ∃ read lookahead, err.trace.StuckAfter (u.toList ++ [m]) read lookahead ∧
            g.FirstError [m] read lookahead) := by
  have hg := Grammar.wellFormed_of_read hread
  have hm : g.endMarker.text = String.singleton m :=
    (Grammar.endMarker_of_read hread).trans hmarker
  have hchars : ∀ y ∈ g.symbols.symbols, y.IsTerminal → ∃ c, y.text = String.singleton c := by
    intro y hy ht
    rcases Grammar.text_of_read hread hy with he | he | hc
    · exact absurd he (hg.ne_empty ht.not_empty)
    · exact ⟨m, he.trans hmarker⟩
    · exact hc
  obtain ⟨a, hload, -, hgrammar, hs, htable⟩ := Analysis.exists_load hread
  rw [hfix] at hs
  refine ⟨a, hload, hgrammar, fun hconflicts u limit err hu hparse => ?_⟩
  rw [htable] at hconflicts
  rw [parser, hgrammar, htable, hmarker] at hparse
  exact Solver.exists_firstError hg hv hs hconflicts hstart hx hterminal habsent hm hchars hu hparse

/-- A bracket that is not closed is missed at the end marker, and could still be closed there. -/
theorem Analysis.parser_stops_at_firstError_unclosed :
    ∃ g x a err read lookahead, Grammar.read {} "S->aSb|$" = .ok g ∧ g.LeftsVariable ∧
      g.start = some x ∧ x.IsVariable ∧ g.endMarker.IsTerminal ∧
      (∀ p ∈ g.productions, ∀ c ∈ p.candidates, g.endMarker ∉ c) ∧
      Analysis.load {} "S->aSb|$" = .ok a ∧ a.table.conflicts = [] ∧
      a.parser.parse 10 ("aab" ++ "#") = some (.error err) ∧
      err.trace.StuckAfter ("aab".toList ++ ['#']) read lookahead ∧
      (∀ w, g.Sentence w → ¬read ++ [lookahead] <+: w ++ ['#']) ∧
      ∃ w, g.Sentence w ∧ read <+: w := by
  obtain ⟨g, hg, hv, ⟨x, hstart, hx⟩, hterminal, habsent, hbodies⟩ :
      ∃ g, Grammar.read {} "S->aSb|$" = .ok g ∧ g.LeftsVariable ∧
        (∃ x, g.start = some x ∧ x.IsVariable) ∧ g.endMarker.IsTerminal ∧
        (∀ p ∈ g.productions, ∀ c ∈ p.candidates, g.endMarker ∉ c) ∧
        ∀ y ∈ g.symbols.symbols, y.IsVariable → ∃ p ∈ g.productions, p.left = y ∧
          ∃ c ∈ p.candidates, ∀ z ∈ c.body, z.IsTerminal := by decide +kernel
  have hproductive : g.Productive := by
    intro y hy hvar
    obtain ⟨p, hp, rfl, c, hc, hbody⟩ := hbodies y hy hvar
    exact ⟨c.body, .of_candidate hp hvar hc, hbody⟩
  obtain ⟨a, ha, -, hstops⟩ :=
    parser_stops_at_firstError (m := '#') rfl hg hv hstart hx rfl hterminal habsent
  obtain ⟨b, hb, hconflicts, r, hparse, hfails⟩ : ∃ b, Analysis.load {} "S->aSb|$" = .ok b ∧
      b.table.conflicts = [] ∧
        ∃ r, b.parser.parse 10 ("aab" ++ "#") = some r ∧ r.toBool = false := by decide +kernel
  obtain ⟨err, rfl⟩ : ∃ err, r = .error err := by
    cases r with
    | ok => cases hfails
    | error err => exact ⟨err, rfl⟩
  obtain rfl : b = a := Except.ok.inj (hb.symm.trans ha)
  obtain ⟨read, lookahead, hstuck, hfirst⟩ := hstops hconflicts "aab" 10 err (by decide) hparse
  exact ⟨g, x, b, err, read, lookahead, hg, hv, hstart, hx, hterminal, habsent, ha, hconflicts,
    hparse, hstuck, hfirst.not_late, hfirst.not_early hproductive⟩

end GrammarLab
