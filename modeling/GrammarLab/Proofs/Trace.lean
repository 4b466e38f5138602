import Mathlib
import GrammarLab.Grammar.Derivation
import GrammarLab.Proofs.FollowDerivation
import GrammarLab.Proofs.Input
import GrammarLab.Proofs.Table

/-!
# What a trace shows

At every row of a trace the consumed input followed by the stack is the form that the derivations
of the rows before it make of the start symbol. A trace that ends in acceptance is therefore a
derivation of the input, whatever the table holds beside entries of the grammar.
-/

namespace GrammarLab

def Action.Final : Action → Prop
  | .accept => True
  | .stuck _ _ => True
  | .consume _ => False
  | .derive _ _ => False

/-- What a step makes of the form derived before it. A derivation replaces the first symbol after
the input consumed by then, and it has no result where another symbol stands there. -/
def Step.rewrite (input form : List Symbol) (s : Step) : Option (List Symbol) :=
  match s.action with
  | .derive x c =>
    let consumed := input.length - s.remaining.length
    if form[consumed]? = some x then
      some (form.take consumed ++ c.body ++ form.drop (consumed + 1))
    else none
  | _ => some form

/-- What the steps of a trace make of a form, in order. -/
def Trace.rewrite (input form : List Symbol) (t : Trace) : Option (List Symbol) :=
  t.foldlM (Step.rewrite input) form

structure Step.Fits (e : Symbol) (input form : List Symbol) (s : Step) : Prop where
  placed : s.action ≠ .accept → ∃ consumed above, form = consumed ++ above ∧
    input = consumed ++ s.remaining ∧ s.stack = above ++ [e]
  accepted : s.action = .accept → input = form ++ [e]

def Step.Follows (g : Grammar) (s : Step) : Prop :=
  ∀ x c, s.action = .derive x c → ∃ p, g.productionFor x = some p ∧ c ∈ p.candidates

/-- A trace shows the steps of a derivation along its input. -/
structure Trace.Faithful (g : Grammar) (input : List Symbol) (start : Symbol) (t : Trace) :
    Prop where
  numbers : ∀ display, (t.rows display).map Row.number = List.range' 1 t.length
  first_row : ∃ s rest, t = s :: rest ∧ s.stack = [start, g.endMarker] ∧ s.remaining = input
  follows : ∀ s ∈ t, s.Follows g
  fits : ∀ before s after, t = before ++ s :: after →
    ∃ form, Trace.rewrite input [start] before = some form ∧ s.Fits g.endMarker input form
  final : ∀ before s after, t = before ++ s :: after → (s.action.Final ↔ after = [])
  success : ∀ before s, t = before ++ [s] → s.action = .accept →
    ∃ w, input = w ++ [g.endMarker] ∧ g.Rewrites [start] w ∧
      (g.LeftsVariable → g.Derives [start] w)

def Trace.ofResult : Except ParseError Trace → Trace
  | .ok t => t
  | .error e => e.trace

theorem Trace.ofResult_result (r : Run) : Trace.ofResult r.result = r.trace := by
  obtain ⟨trace, verdict⟩ := r
  cases verdict with
  | accepted => rfl
  | rejected cause => cases cause <;> rfl

theorem Trace.numbers_rows (display : String) (t : Trace) :
    (t.rows display).map Row.number = List.range' 1 t.length := by
  have hnumber : Row.number ∘ (fun sn : Step × Nat => sn.1.row display sn.2) = Prod.snd := rfl
  rw [rows, List.map_map, hnumber, List.zipIdx_map_snd]

namespace Step

variable {input form : List Symbol} {s : Step}

theorem rewrite_of_derive {consumed below : List Symbol} {x : Symbol} {c : Candidate}
    (hinput : input = consumed ++ s.remaining) (ha : s.action = .derive x c) :
    s.rewrite input (consumed ++ x :: below) = some (consumed ++ c.body ++ below) := by
  have hlength : input.length - s.remaining.length = consumed.length := by
    rw [hinput, List.length_append]
    omega
  simp [rewrite, ha, hlength]

theorem rewrites {g : Grammar} {next : List Symbol} (hs : s.Follows g)
    (h : s.rewrite input form = some next) : g.Rewrites form next := by
  rw [rewrite] at h
  split at h
  · next x c ha =>
    dsimp only at h
    split at h
    · next hx =>
      cases h
      obtain ⟨p, hp, hc⟩ := hs x c ha
      obtain ⟨hmem, rfl⟩ := Grammar.mem_of_productionFor hp
      obtain ⟨hlt, hget⟩ := List.getElem?_eq_some_iff.mp hx
      have hsplit : form = form.take (input.length - s.remaining.length) ++
          p.left :: form.drop (input.length - s.remaining.length + 1) := by
        rw [← hget, List.cons_getElem_drop_succ, List.take_append_drop]
      have hhead := Grammar.Rewrites.head (form.take (input.length - s.remaining.length))
        (form.drop (input.length - s.remaining.length + 1)) hmem hc (.refl _)
      rwa [← hsplit] at hhead
    · cases h
  · cases h
    exact .refl _

end Step

theorem Trace.rewrites {g : Grammar} {input form last : List Symbol} {t : Trace}
    (ht : ∀ s ∈ t, s.Follows g) (h : Trace.rewrite input form t = some last) :
    g.Rewrites form last := by
  induction t generalizing form with
  | nil =>
    cases h
    exact .refl _
  | cons s rest ih =>
    obtain ⟨next, hnext, hrest⟩ := Option.bind_eq_some_iff.mp h
    have hstep := Step.rewrites (ht s List.mem_cons_self) hnext
    exact hstep.trans (ih (fun u hu => ht u (List.mem_cons_of_mem _ hu)) hrest)

namespace ParsingTable

variable {t : ParsingTable} {e : Symbol} {k : Configuration} {r : Run}

theorem Runs.first_row (h : t.Runs e k r) (hne : k.above ≠ []) :
    ∃ s rest, r.trace = s :: rest ∧ s.stack = k.stack e ∧ s.remaining = k.remaining := by
  cases h with
  | consume => exact ⟨_, _, rfl, rfl, rfl⟩
  | derive => exact ⟨_, _, rfl, rfl, rfl⟩
  | accept => exact absurd rfl hne
  | stuck => exact ⟨_, _, rfl, rfl, rfl⟩

theorem Runs.lookup_of_derive (h : t.Runs e k r) {s : Step} (hs : s ∈ r.trace) {x : Symbol}
    {c : Candidate} (ha : s.action = .derive x c) : ∃ a, t.lookup x a = some c := by
  induction h with
  | consume _ _ ih =>
    rcases List.mem_cons.mp hs with rfl | hs
    · cases ha
    · exact ih hs
  | derive _ hcell _ ih =>
    rcases List.mem_cons.mp hs with rfl | hs
    · cases ha
      exact ⟨_, hcell⟩
    · exact ih hs
  | accept =>
    obtain rfl := List.mem_singleton.mp hs
    cases ha
  | stuck =>
    obtain rfl := List.mem_singleton.mp hs
    cases ha

theorem Runs.trace_ne_nil (h : t.Runs e k r) : r.trace ≠ [] := by
  cases h <;> exact List.cons_ne_nil _ _

theorem Runs.final (h : t.Runs e k r) {before after : Trace} {s : Step}
    (hsplit : r.trace = before ++ s :: after) : s.action.Final ↔ after = [] := by
  induction h generalizing before with
  | consume _ hrest ih =>
    cases before with
    | nil =>
      obtain ⟨rfl, rfl⟩ := List.cons.inj hsplit
      exact iff_of_false id hrest.trace_ne_nil
    | cons _ before => exact ih (List.cons.inj hsplit).2
  | derive _ _ hrest ih =>
    cases before with
    | nil =>
      obtain ⟨rfl, rfl⟩ := List.cons.inj hsplit
      exact iff_of_false id hrest.trace_ne_nil
    | cons _ before => exact ih (List.cons.inj hsplit).2
  | accept =>
    obtain ⟨rfl, rfl, rfl⟩ := singleton_eq_split hsplit
    exact iff_of_true trivial rfl
  | stuck =>
    obtain ⟨rfl, rfl, rfl⟩ := singleton_eq_split hsplit
    exact iff_of_true trivial rfl

/-- The simulation: wherever a run starts, the form kept by consumed input and stack is carried
along its trace. -/
theorem Runs.fits (h : t.Runs e k r) {input consumed : List Symbol}
    (hinput : input = consumed ++ k.remaining) {before after : Trace} {s : Step}
    (hsplit : r.trace = before ++ s :: after) :
    ∃ form, Trace.rewrite input (consumed ++ k.above) before = some form ∧
      s.Fits e input form := by
  induction h generalizing consumed before with
  | @consume top below rest r _ _ ih =>
    cases before with
    | nil =>
      obtain ⟨rfl, rfl⟩ := List.cons.inj hsplit
      exact ⟨_, rfl, fun _ => ⟨consumed, _, rfl, hinput, rfl⟩, nofun⟩
    | cons _ before =>
      obtain ⟨rfl, hrest⟩ := List.cons.inj hsplit
      have hnext : input = consumed ++ [top] ++ rest := by simp [hinput]
      have hform := ih hnext hrest
      rw [List.append_assoc] at hform
      exact hform
  | @derive x a c below rest r _ _ _ ih =>
    cases before with
    | nil =>
      obtain ⟨rfl, rfl⟩ := List.cons.inj hsplit
      exact ⟨_, rfl, fun _ => ⟨consumed, _, rfl, hinput, rfl⟩, nofun⟩
    | cons first before =>
      obtain ⟨rfl, hrest⟩ := List.cons.inj hsplit
      have hform := ih hinput hrest
      rw [Trace.rewrite, List.foldlM_cons, Step.rewrite_of_derive hinput rfl]
      rw [← List.append_assoc] at hform
      exact hform
  | accept =>
    obtain ⟨rfl, rfl, rfl⟩ := singleton_eq_split hsplit
    refine ⟨_, rfl, nofun, fun _ => ?_⟩
    rw [hinput, List.append_nil]
  | stuck =>
    obtain ⟨rfl, rfl, rfl⟩ := singleton_eq_split hsplit
    exact ⟨_, rfl, fun _ => ⟨consumed, _, rfl, hinput, rfl⟩, nofun⟩

end ParsingTable

theorem Trace.faithful_of_runs {g : Grammar} {t : ParsingTable} {start : Symbol}
    {input : List Symbol} {r : Run} (h : t.Runs g.endMarker ⟨[start], input⟩ r)
    (hfollows : ∀ s ∈ r.trace, s.Follows g) : Trace.Faithful g input start r.trace := by
  have hfits : ∀ before s after, r.trace = before ++ s :: after →
      ∃ form, Trace.rewrite input [start] before = some form ∧ s.Fits g.endMarker input form :=
    fun before s after hsplit => @ParsingTable.Runs.fits _ _ _ _ h input [] rfl before after s hsplit
  refine
    { numbers := fun display => Trace.numbers_rows display r.trace
      first_row := h.first_row (List.cons_ne_nil _ _)
      follows := hfollows
      fits := hfits
      final := fun before s after hsplit => h.final hsplit
      success := ?_ }
  intro before s hsplit ha
  obtain ⟨form, hform, hs⟩ := hfits before s [] hsplit
  have hbefore : ∀ u ∈ before, u.Follows g := by
    intro u hu
    exact hfollows u (hsplit ▸ List.mem_append_left _ hu)
  have hrewrites := Trace.rewrites hbefore hform
  exact ⟨form, hs.accepted ha, hrewrites, fun hv => hrewrites.derives hv⟩

theorem Solver.follows_of_runs {g : Grammar} (hg : g.WellFormed) {s : Solver.State} {e : Symbol}
    {k : Configuration} {r : Run} (h : (tableOf g s).Runs e k r) : ∀ u ∈ r.trace, u.Follows g := by
  intro u hu x c ha
  obtain ⟨a, hcell⟩ := h.lookup_of_derive hu ha
  obtain ⟨p, hp, rfl, hc, -⟩ := selecting_of_lookup hcell
  exact ⟨p, hg.productionFor_left hp, hc⟩

/-- Every parse that ends on an input with its end marker shows a faithful trace, whether it
succeeds or fails, and whatever conflicts the table has. -/
theorem Analysis.parse_faithful {config : GrammarConfig} {text : String} {g : Grammar}
    (hread : Grammar.read config text = .ok g) :
    ∃ a, Analysis.load config text = .ok a ∧ a.grammar = g ∧
      ∀ (input : String) (limit : Nat) (r : Except ParseError Trace),
        a.parser.EndsWithMarker input.toList → a.parser.parse limit input = some r →
          ∃ symbols start, a.parser.prepare input.toList = (symbols, start) ∧
            symbols.map Symbol.text = input.toList.map String.singleton ∧
            start.text = config.startSymbol ∧
            Trace.Faithful g symbols start (Trace.ofResult r) := by
  obtain ⟨a, hload, hconfig, hgrammar, -, htable⟩ := Analysis.exists_load hread
  have hg := Grammar.wellFormed_of_read hread
  refine ⟨a, hload, hgrammar, fun input limit r hend hparse => ?_⟩
  obtain ⟨run, hruns, rfl⟩ := Parser.runs_of_parse hend hparse
  have hparser : a.parser = ⟨g, a.table, config.startSymbol⟩ := by
    rw [Analysis.parser, hconfig, hgrammar]
  rw [hparser] at hruns ⊢
  refine ⟨_, _, rfl, Parser.map_text_prepare _, ?_, ?_⟩
  · exact Parser.text_start_prepare (Grammar.start_of_read hread) _
  rw [Trace.ofResult_result]
  rw [htable] at hruns
  exact Trace.faithful_of_runs hruns (Solver.follows_of_runs hg hruns)

/-- A terminal that has a production of its own is replaced where it cannot be matched. -/
theorem Analysis.parse_faithful_terminal_left :
    ∃ g a r, Grammar.read {} "S->aa\na->b" = .ok g ∧ Analysis.load {} "S->aa\na->b" = .ok a ∧
      a.parser.EndsWithMarker "ab#".toList ∧ a.parser.parse 10 "ab#" = some r ∧
        ∃ symbols start, a.parser.prepare "ab#".toList = (symbols, start) ∧
          symbols.map Symbol.text = ["a", "b", "#"] ∧ start.text = "S" ∧
          Trace.Faithful g symbols start (Trace.ofResult r) := by
  obtain ⟨g, hg, -⟩ : ∃ g, Grammar.read {} "S->aa\na->b" = .ok g ∧ True := by decide +kernel
  obtain ⟨a, ha, -, hfaithful⟩ := parse_faithful hg
  obtain ⟨b, hb, hend, hparse⟩ : ∃ b, Analysis.load {} "S->aa\na->b" = .ok b ∧
      b.parser.EndsWithMarker "ab#".toList ∧ (b.parser.parse 10 "ab#").isSome := by decide +kernel
  obtain rfl : b = a := Except.ok.inj (hb.symm.trans ha)
  obtain ⟨r, hr⟩ := Option.isSome_iff_exists.mp hparse
  exact ⟨g, b, r, hg, ha, hend, hr, hfaithful "ab#" 10 r hend hr⟩

end GrammarLab
