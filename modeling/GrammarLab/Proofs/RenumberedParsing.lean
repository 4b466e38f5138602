import Mathlib
import GrammarLab.Proofs.Cells
import GrammarLab.Proofs.Renumbering

/-!
# Parsing after renumbering

The table of a renumbered grammar has the renumbered cells, and its conflicts up to order. The
machine makes the same moves on it, so that every parse has the same outcome within the same number
of moves. What is shown of an outcome are texts and kinds only, which renumbering keeps.
-/

namespace GrammarLab

variable {π : Equiv.Perm Nat}

/-- A conflict whose symbols are all renumbered. -/
def Conflict.renumber (π : Equiv.Perm Nat) (k : Conflict) : Conflict :=
  ⟨k.left.renumber π, k.lookahead.renumber π, k.replaced.map (Symbol.renumber π),
    k.replacement.map (Symbol.renumber π)⟩

theorem Candidate.map_renumber_injective :
    Function.Injective (List.map (Symbol.renumber π)) :=
  Symbol.renumber_injective.list_map

theorem Candidate.changes_map_renumber (cs : List Candidate) :
    changes (cs.map (List.map (Symbol.renumber π))) =
      (changes cs).map fun (c, d) => (c.map (Symbol.renumber π), d.map (Symbol.renumber π)) := by
  rw [changes, changes, ← List.map_tail, List.zip_map, List.filter_map]
  have hsame : (fun p : Candidate × Candidate => decide (p.1 ≠ p.2)) ∘
      Prod.map (List.map (Symbol.renumber π)) (List.map (Symbol.renumber π)) =
        fun p => decide (p.1 ≠ p.2) := by
    funext p
    simp [map_renumber_injective.eq_iff]
  rw [hsame]
  rfl

namespace ParsingTable

variable {t t' : ParsingTable}

/-- Cells are carried along; conflicts also, up to order. -/
structure Renumbers (π : Equiv.Perm Nat) (t t' : ParsingTable) : Prop where
  rows : ∀ x, (t'.row (x.renumber π)).isSome = (t.row x).isSome
  cells : ∀ x a, t'.lookup (x.renumber π) (a.renumber π) =
    (t.lookup x a).map (List.map (Symbol.renumber π))
  conflicts : (t.conflicts.map (Conflict.renumber π)).Perm t'.conflicts

theorem Renumbers.row_eq_none (h : t.Renumbers π t') {x : Symbol} (hx : t.row x = none) :
    t'.row (x.renumber π) = none := by
  have hrows := h.rows x
  rw [hx] at hrows
  exact Option.not_isSome_iff_eq_none.mp (by simp [hrows])

theorem Renumbers.row_eq_some (h : t.Renumbers π t') {x : Symbol} {r : TableRow}
    (hx : t.row x = some r) : ∃ r', t'.row (x.renumber π) = some r' ∧
      ∀ a, r'.cell (a.renumber π) = (r.cell a).map (List.map (Symbol.renumber π)) := by
  have hrows := h.rows x
  rw [hx] at hrows
  obtain ⟨r', hr'⟩ := Option.isSome_iff_exists.mp hrows
  refine ⟨r', hr', fun a => ?_⟩
  have hcells := h.cells x a
  rwa [lookup, lookup, hx, hr', Option.bind_some, Option.bind_some] at hcells

theorem perm_conflicts (h : ∀ x a, t'.conflictsAt (x.renumber π) (a.renumber π) =
    (t.conflictsAt x a).map (Conflict.renumber π)) :
    (t.conflicts.map (Conflict.renumber π)).Perm t'.conflicts := by
  rw [List.perm_iff_count]
  intro k
  have hinner : (t.conflicts.map (Conflict.renumber π)).filter
      (fun j => j.left = k.left ∧ j.lookahead = k.lookahead) =
      t'.conflicts.filter fun j => j.left = k.left ∧ j.lookahead = k.lookahead := by
    have hcell := h (k.left.renumber π.symm) (k.lookahead.renumber π.symm)
    simp only [Symbol.renumber_renumber_symm] at hcell
    refine Eq.trans ?_ hcell.symm
    rw [List.filter_map, conflictsAt]
    congr 2
    funext j
    simp only [Function.comp_apply, Conflict.renumber, Symbol.renumber_eq_iff]
  have hcount : ∀ ks : List Conflict,
      (ks.filter fun j => j.left = k.left ∧ j.lookahead = k.lookahead).count k = ks.count k :=
    fun ks => List.count_filter (by simp)
  rw [← hcount, hinner, hcount]

end ParsingTable

namespace Solver

variable {g h : Grammar} {s s' : State}

section Table

variable (k : g.Renumbers π h) (hg : g.WellFormed) (hh : h.WellFormed) (hs : Solved g true s)
  (hs' : Solved h true s')

include k hg hh hs hs'

theorem selects_renumber {p : Production} (hp : p ∈ g.productions) {c : Candidate}
    (hc : c ∈ p.candidates) (a : Symbol) :
    Selects h s' (p.left.renumber π) (a.renumber π) (c.map (Symbol.renumber π)) ↔
      Selects g s p.left a c := by
  obtain ⟨hfirst, hfollow⟩ := hs.renumbers k hg hh hs'
  have hc' : ∀ x ∈ c.map (Symbol.renumber π), x ∈ h.symbols.symbols := by
    intro x hx
    obtain ⟨y, hy, rfl⟩ := List.mem_map.mp hx
    exact k.symbols.mem hg.table (hg.candidate_mem p hp c hc y hy)
  rw [← mem_selecting_iff_selects hs (hg.candidate_mem p hp c hc),
    ← mem_selecting_iff_selects hs' hc', mem_selecting, mem_selecting, k.empty,
    hfirst.mem_firstOf, hfirst.mem_firstOf, hfollow.mem_get, Symbol.isEmpty_renumber]

theorem selectedIn_renumber (x a : Symbol) :
    ParsingTable.selectedIn (Selects h s') h.alternatives (x.renumber π) (a.renumber π) =
      (ParsingTable.selectedIn (Selects g s) g.alternatives x a).map
        (List.map (Symbol.renumber π)) := by
  by_cases hx : x ∈ g.nonTerminals
  · obtain ⟨p, hp, rfl⟩ := List.mem_map.mp hx
    have hleft : ParsingTable.selectedIn (Selects g s) g.alternatives p.left a = _ :=
      ParsingTable.selectedIn_flatMap hg.lefts_nodup hp a
    have hright : ParsingTable.selectedIn (Selects h s') h.alternatives (p.left.renumber π)
        (a.renumber π) = _ :=
      ParsingTable.selectedIn_flatMap hh.lefts_nodup (k.mem_productions hp) (a.renumber π)
    rw [hleft, hright, Production.renumber, List.filter_map]
    congr 1
    refine List.filter_congr fun c hc => ?_
    exact decide_eq_decide.mpr (selects_renumber k hg hh hs hs' hp hc a)
  · have hnone : ∀ {g : Grammar} {x : Symbol}, x ∉ g.nonTerminals →
        ∀ r ∈ g.alternatives, r.1 ≠ x := by
      rintro g _ hx ⟨y, c⟩ hr rfl
      obtain ⟨p, hp, hleft, -⟩ := Grammar.mem_alternatives.mp hr
      exact hx (hleft ▸ List.mem_map_of_mem hp)
    have hx' : x.renumber π ∉ h.nonTerminals := fun hmem => hx (k.mem_nonTerminals.mp hmem)
    rw [ParsingTable.selectedIn_eq_nil (hnone hx), ParsingTable.selectedIn_eq_nil (hnone hx'),
      List.map_nil]

theorem tableOf_renumbers : (tableOf g s).Renumbers π (tableOf h s') := by
  have hselected := selectedIn_renumber k hg hh hs hs'
  have henters := enters_tableOf hg hs
  have henters' := enters_tableOf hh hs'
  constructor
  · intro x
    rw [Bool.eq_iff_iff, henters.rows, henters'.rows]
    exact k.mem_nonTerminals
  · intro x a
    by_cases hx : x ∈ g.nonTerminals
    · rw [henters.cells x hx, henters'.cells _ (k.mem_nonTerminals.mpr hx), hselected,
        List.getLast?_map]
    · have hrow : (tableOf g s).row x = none := by
        rw [← Option.not_isSome_iff_eq_none, henters.rows]
        exact hx
      have hrow' : (tableOf h s').row (x.renumber π) = none := by
        rw [← Option.not_isSome_iff_eq_none, henters'.rows, k.mem_nonTerminals]
        exact hx
      rw [ParsingTable.lookup, ParsingTable.lookup, hrow, hrow']
      rfl
  · apply ParsingTable.perm_conflicts
    intro x a
    rw [henters.conflicts, henters'.conflicts, hselected, Candidate.changes_map_renumber,
      List.map_map, List.map_map]
    rfl

end Table

end Solver

section Machine

def Configuration.renumber (π : Equiv.Perm Nat) (k : Configuration) : Configuration :=
  ⟨k.above.map (Symbol.renumber π), k.remaining.map (Symbol.renumber π)⟩

def Cause.renumber (π : Equiv.Perm Nat) : Cause → Cause
  | .undefined s a => .undefined (s.renumber π) (a.renumber π)
  | .noEntry s a => .noEntry (s.renumber π) (a.renumber π)

def Move.renumber (π : Equiv.Perm Nat) : Move → Move
  | .consume s next => .consume (s.renumber π) (next.renumber π)
  | .derive s c next => .derive (s.renumber π) (c.map (Symbol.renumber π)) (next.renumber π)
  | .accept => .accept
  | .stuck cause => .stuck (cause.renumber π)

def Action.renumber (π : Equiv.Perm Nat) : Action → Action
  | .consume s => .consume (s.renumber π)
  | .derive s c => .derive (s.renumber π) (c.map (Symbol.renumber π))
  | .accept => .accept
  | .stuck s a => .stuck (s.renumber π) (a.renumber π)

def Step.renumber (π : Equiv.Perm Nat) (s : Step) : Step :=
  ⟨s.stack.map (Symbol.renumber π), s.remaining.map (Symbol.renumber π), s.action.renumber π⟩

def Verdict.renumber (π : Equiv.Perm Nat) : Verdict → Verdict
  | .accepted => .accepted
  | .rejected cause => .rejected (cause.renumber π)

def Run.renumber (π : Equiv.Perm Nat) (r : Run) : Run :=
  ⟨r.trace.map (Step.renumber π), r.verdict.renumber π⟩

theorem Candidate.body_renumber (c : Candidate) :
    body (c.map (Symbol.renumber π)) = (body c).map (Symbol.renumber π) := by
  rw [body, body, List.filter_map]
  rfl

theorem Configuration.stack_renumber (e : Symbol) (k : Configuration) :
    (k.renumber π).stack (e.renumber π) = (k.stack e).map (Symbol.renumber π) := by
  simp [stack, renumber]

variable {t t' : ParsingTable}

theorem ParsingTable.Renumbers.move (ht : t.Renumbers π t') (e : Symbol) (k : Configuration) :
    t'.move (e.renumber π) (k.renumber π) = (t.move e k).renumber π := by
  obtain ⟨above, remaining⟩ := k
  cases above with
  | nil =>
    cases remaining with
    | nil => rfl
    | cons a rest =>
      have hlast : (a :: rest).map (Symbol.renumber π) = [e.renumber π] ↔ a :: rest = [e] :=
        Candidate.map_renumber_injective.eq_iff (b := [e])
      simp only [ParsingTable.move, Configuration.renumber, List.map_nil, List.map_cons] at hlast ⊢
      by_cases h : a :: rest = [e]
      · rw [if_pos h, if_pos (hlast.mpr h)]
        rfl
      · rw [if_neg h, if_neg (hlast.not.mpr h)]
        rfl
  | cons top below =>
    cases remaining with
    | nil => rfl
    | cons a rest =>
      simp only [ParsingTable.move, Configuration.renumber, List.map_cons,
        Symbol.isTerminal_renumber, Symbol.renumber_inj]
      by_cases hmatch : top.IsTerminal ∧ top = a
      · rw [if_pos hmatch, if_pos hmatch]
        rfl
      · rw [if_neg hmatch, if_neg hmatch]
        cases hrow : t.row top with
        | none =>
          rw [ht.row_eq_none hrow]
          rfl
        | some r =>
          obtain ⟨r', hrow', hcells⟩ := ht.row_eq_some hrow
          simp only [hrow', hcells]
          cases r.cell a with
          | none => rfl
          | some c => simp [Move.renumber, Configuration.renumber, Candidate.body_renumber]

theorem ParsingTable.Renumbers.run (ht : t.Renumbers π t') (e : Symbol) (limit : Nat)
    (k : Configuration) :
    t'.run (e.renumber π) limit (k.renumber π) = (t.run e limit k).map (Run.renumber π) := by
  induction limit generalizing k with
  | zero => rfl
  | succ limit ih =>
    rw [ParsingTable.run, ParsingTable.run, ht.move, Configuration.stack_renumber]
    cases t.move e k with
    | consume s next =>
      simp only [Move.renumber, ih, Option.map_map]
      rfl
    | derive s c next =>
      simp only [Move.renumber, ih, Option.map_map]
      rfl
    | accept => simp [Move.renumber, Run.renumber, Step.renumber, Verdict.renumber,
        Action.renumber, Configuration.renumber]
    | stuck cause => cases cause <;> rfl

end Machine

section Outcome

/-- An error as it is shown: which one it is, its message, its symbols and the rows before it. -/
inductive ShownError where
  | missingEndMarker (message : String)
  | undefinedNonterminal (message symbol lookahead : String) (rows : List Row)
  | noProduction (message symbol lookahead : String) (rows : List Row)
  deriving DecidableEq, Repr

def ParseError.shown (display : String) (e : ParseError) : ShownError :=
  match e with
  | .missingEndMarker _ => .missingEndMarker e.message
  | .undefinedNonterminal s a t => .undefinedNonterminal e.message s.text a.text (t.rows display)
  | .noProduction s a t => .noProduction e.message s.text a.text (t.rows display)

def Parser.shown (display : String) : Except ParseError Trace → Except ShownError (List Row)
  | .ok t => .ok (Trace.rows display t)
  | .error e => .error (e.shown display)

theorem Candidate.render_renumber (display : String) (c : Candidate) :
    render display (c.map (Symbol.renumber π)) = render display c := by
  rw [render, render, List.map_map]
  rfl

theorem Action.kind_renumber (act : Action) : (act.renumber π).kind = act.kind := by
  cases act <;> rfl

theorem Action.text_renumber (display : String) (act : Action) :
    (act.renumber π).text display = act.text display := by
  cases act with
  | consume s => rfl
  | derive s c => exact congrArg (Production.rule s) (Candidate.render_renumber display c)
  | accept => rfl
  | stuck s a => rfl

theorem Step.row_renumber (display : String) (n : Nat) (s : Step) :
    (s.renumber π).row display n = s.row display n := by
  simp only [row, renumber, Action.kind_renumber, Action.text_renumber, Candidate.render_renumber]

theorem Trace.rows_renumber (display : String) (t : Trace) :
    Trace.rows display (t.map (Step.renumber π)) = Trace.rows display t := by
  rw [Trace.rows, Trace.rows, List.zipIdx_map, List.map_map]
  refine List.map_congr_left fun p _ => ?_
  exact Step.row_renumber display p.2 p.1

def ParseError.renumber (π : Equiv.Perm Nat) : ParseError → ParseError
  | .missingEndMarker marker => .missingEndMarker marker
  | .undefinedNonterminal s a t =>
    .undefinedNonterminal (s.renumber π) (a.renumber π) (t.map (Step.renumber π))
  | .noProduction s a t =>
    .noProduction (s.renumber π) (a.renumber π) (t.map (Step.renumber π))

theorem ParseError.shown_renumber (display : String) (e : ParseError) :
    (e.renumber π).shown display = e.shown display := by
  cases e with
  | missingEndMarker marker => rfl
  | undefinedNonterminal s a t =>
    have hrows := Trace.rows_renumber (π := π) display t
    exact congrArg (ShownError.undefinedNonterminal _ s.text a.text) hrows
  | noProduction s a t =>
    have hrows := Trace.rows_renumber (π := π) display t
    exact congrArg (ShownError.noProduction _ s.text a.text) hrows

theorem Run.shown_renumber (display : String) (r : Run) :
    Parser.shown display (r.renumber π).result = Parser.shown display r.result := by
  obtain ⟨t, verdict⟩ := r
  cases verdict with
  | accepted => exact congrArg Except.ok (Trace.rows_renumber display t)
  | rejected cause =>
    cases cause with
    | undefined s a =>
      exact congrArg Except.error (ParseError.shown_renumber display (.undefinedNonterminal s a t))
    | noEntry s a =>
      exact congrArg Except.error (ParseError.shown_renumber display (.noProduction s a t))

namespace Parser

variable {p p' : Parser}

structure Renumbers (π : Equiv.Perm Nat) (p p' : Parser) : Prop where
  grammar : p.grammar.Renumbers π p'.grammar
  table : p.table.Renumbers π p'.table
  startText : p'.startText = p.startText

theorem Renumbers.initial (k : p.Renumbers π p') (input : List Char) :
    p'.initial input = (p.initial input).renumber π := by
  obtain ⟨hsymbols, htable⟩ :=
    k.grammar.symbols.internAll .terminal (input.map String.singleton)
  obtain ⟨hstart, -⟩ := htable.intern p.startText .variable
  have hprepare : (p'.prepare input).2 = (p.prepare input).2.renumber π := by
    rw [prepare, prepare, k.grammar.start, k.startText]
    cases p.grammar.start with
    | none => exact hstart
    | some s => rfl
  rw [Parser.initial, Parser.initial, hprepare]
  exact congrArg (Configuration.mk _) hsymbols

theorem Renumbers.shown_parse (k : p.Renumbers π p') (display : String) (limit : Nat)
    (input : String) :
    (p'.parse limit input).map (shown display) = (p.parse limit input).map (shown display) := by
  have hends : p'.EndsWithMarker input.toList ↔ p.EndsWithMarker input.toList := by
    rw [EndsWithMarker, EndsWithMarker, k.grammar.endMarker, Symbol.text_renumber]
  rw [parse, parse]
  by_cases hend : p.EndsWithMarker input.toList
  · rw [if_pos hend, if_pos (hends.mpr hend), k.grammar.endMarker, k.initial, k.table.run]
    simp only [Option.map_map]
    congr 1
    funext r
    exact Run.shown_renumber display r
  · rw [if_neg hend, if_neg (hends.not.mpr hend), k.grammar.endMarker, Symbol.text_renumber]

end Parser

end Outcome

end GrammarLab
