import Mathlib
import GrammarLab.Analysis
import GrammarLab.Proofs.Input
import GrammarLab.Proofs.Rules
import GrammarLab.Proofs.Table

/-!
# Grammars without a start symbol

Where no rule mentions the start character, it is numbered only when an input is prepared, after the
characters of that input. It has no row, so a parser cannot get past it. Yet an input that holds the
start character has made it a terminal by then, and one that begins with it has it matched. All
other inputs are refused in the first row.
-/

namespace GrammarLab

theorem SymbolTable.kind_of_mem_internAll {t : SymbolTable} {kind : Kind} {texts : List String}
    {x : Symbol} (hx : x ∈ (t.internAll kind texts).2.symbols) : x ∈ t.symbols ∨ x.kind = kind := by
  induction texts generalizing t with
  | nil => exact Or.inl hx
  | cons text rest ih =>
    rcases ih hx with hx | hkind
    · rcases mem_intern hx with hx | ⟨rfl, -⟩
      · exact Or.inl hx
      · exact Or.inr rfl
    · exact Or.inr hkind

namespace Parser

/-- The parser stops in its first row, stuck on the start symbol before the symbol `a`. -/
structure StuckOnStart (p : Parser) (input : String) (s a : Symbol) (trace : Trace) : Prop where
  start : s.text = p.startText
  lookahead : (p.prepare input.toList).1.head? = some a
  error : ∀ limit, 0 < limit →
    p.parse limit input = some (.error (.undefinedNonterminal s a trace))
  single : trace = [⟨[s, p.grammar.endMarker], (p.prepare input.toList).1, .stuck s a⟩]
  row : ∀ display, (Trace.rows display trace).map (fun r => (r.number, r.kind, r.stack)) =
    [(1, "stuck", p.startText ++ p.grammar.endMarker.text)]

structure LacksStart (p : Parser) : Prop where
  table : p.grammar.symbols.WellFormed
  missing : p.startText ∉ p.grammar.symbols.symbols.map Symbol.text
  start : p.grammar.start = none
  rows : ∀ x, (p.table.row x).isSome → x ∈ p.grammar.symbols.symbols
  marker_mem : p.grammar.endMarker ∈ p.grammar.symbols.symbols
  marker_kind : ¬p.grammar.endMarker.IsEmpty

variable {p : Parser} {input : List Char} {a : Symbol} {rest : List Symbol}

namespace LacksStart

variable (h : p.LacksStart)

include h

theorem prepare_eq (input : List Char) : (p.prepare input).2 =
    ((p.grammar.symbols.internAll .terminal (input.map String.singleton)).2.intern p.startText
      .variable).1 := by
  rw [prepare, h.start]
  rfl

theorem text_start (input : List Char) : (p.prepare input).2.text = p.startText := by
  rw [h.prepare_eq]
  exact SymbolTable.text_intern

theorem row_start (input : List Char) : p.table.row (p.prepare input).2 = none := by
  rw [← Option.not_isSome_iff_eq_none]
  intro hrow
  exact h.missing (h.text_start input ▸ List.mem_map_of_mem (h.rows _ hrow))

theorem start_not_empty (input : List Char) : ¬(p.prepare input).2.IsEmpty := by
  have htext := h.text_start input
  rw [h.prepare_eq] at htext ⊢
  rcases SymbolTable.mem_intern SymbolTable.intern_mem with hx | ⟨hx, -⟩
  · rcases SymbolTable.kind_of_mem_internAll hx with hx | hkind
    · exact absurd (List.mem_map_of_mem hx) (htext ▸ h.missing)
    · simp [Symbol.IsEmpty, hkind]
  · rw [hx]
    simp [Symbol.IsEmpty, SymbolTable.fresh]

theorem matches_start_iff (ha : a ∈ (p.prepare input).1) :
    ((p.prepare input).2.IsTerminal ∧ (p.prepare input).2 = a) ↔ a.text = p.startText := by
  have htable := h.table.internAll .terminal (input.map String.singleton)
  have hmem := SymbolTable.internAll_mem a ha
  constructor
  · rintro ⟨-, rfl⟩
    exact h.text_start input
  · intro htext
    have hsame : (p.prepare input).2 = a := by
      rw [h.prepare_eq]
      exact SymbolTable.eq_of_text (htable.intern p.startText .variable) SymbolTable.intern_mem
        (SymbolTable.mem_intern_of_mem hmem) (SymbolTable.text_intern.trans htext.symm)
    refine ⟨hsame ▸ ?_, hsame⟩
    rcases SymbolTable.kind_of_mem_internAll hmem with hknown | hkind
    · exact absurd (List.mem_map_of_mem hknown) (htext ▸ h.missing)
    · exact hkind

theorem move_initial (hsymbols : (p.prepare input).1 = a :: rest) :
    p.table.move p.grammar.endMarker (p.initial input) =
      if a.text = p.startText then .consume (p.prepare input).2 ⟨[], rest⟩
      else .stuck (.undefined (p.prepare input).2 a) := by
  have ha : a ∈ (p.prepare input).1 := hsymbols ▸ List.mem_cons_self
  rw [initial, hsymbols, ParsingTable.move]
  simp only [h.matches_start_iff ha, h.row_start input]

theorem stuckOnStart {input : String} (hend : p.EndsWithMarker input.toList)
    (hsymbols : (p.prepare input.toList).1 = a :: rest) (hne : a.text ≠ p.startText) :
    p.StuckOnStart input (p.prepare input.toList).2 a
      [⟨[(p.prepare input.toList).2, p.grammar.endMarker], (p.prepare input.toList).1,
        .stuck (p.prepare input.toList).2 a⟩] := by
  refine ⟨h.text_start _, by rw [hsymbols]; rfl, fun limit hlimit => ?_, rfl, fun display => ?_⟩
  · obtain ⟨limit, rfl⟩ := Nat.exists_eq_add_one.mpr hlimit
    rw [parse, if_pos hend, ParsingTable.run, h.move_initial hsymbols, if_neg hne]
    rfl
  · have hstack : Candidate.render display [(p.prepare input.toList).2, p.grammar.endMarker] =
        p.startText ++ p.grammar.endMarker.text := by
      simp [Candidate.render, h.start_not_empty, h.marker_kind, h.text_start]
    simp [Trace.rows, Step.row, Action.kind, hstack]

theorem parse_matched {input : String} (hend : p.EndsWithMarker input.toList)
    (hsymbols : (p.prepare input.toList).1 = a :: rest) (ha : a.text = p.startText) (limit : Nat) :
    (∃ trace, p.parse (limit + 2) input = some (.ok trace)) ∧ rest = [p.grammar.endMarker] ∨
      (∃ s b trace, p.parse (limit + 2) input = some (.error (.noProduction s b trace))) ∧
        rest ≠ [p.grammar.endMarker] := by
  rw [parse, if_pos hend, ParsingTable.run, h.move_initial hsymbols, if_pos ha]
  dsimp only
  rw [ParsingTable.run, ParsingTable.move.eq_def]
  dsimp only
  cases rest with
  | nil => exact Or.inr ⟨⟨_, _, _, rfl⟩, by simp⟩
  | cons b rest =>
    by_cases hlast : b :: rest = [p.grammar.endMarker]
    · refine Or.inl ⟨?_, hlast⟩
      simp only [hlast, if_true]
      exact ⟨_, rfl⟩
    · refine Or.inr ⟨?_, hlast⟩
      simp only [hlast, if_false]
      exact ⟨_, _, _, rfl⟩

theorem rest_eq_iff (hsymbols : (p.prepare input).1 = a :: rest) {m : Char}
    (hmarker : p.grammar.endMarker.text = String.singleton m) {cs : List Char}
    (hrest : rest.map Symbol.text = cs.map String.singleton) :
    rest = [p.grammar.endMarker] ↔ cs = [m] := by
  have hinjective : Function.Injective String.singleton := fun _ _ heq => singleton_inj.mp heq
  have htexts : cs = [m] ↔ rest.map Symbol.text = [p.grammar.endMarker].map Symbol.text := by
    rw [hrest, List.map_singleton, hmarker, ← List.map_singleton, hinjective.list_map.eq_iff]
  rw [htexts]
  constructor
  · rintro rfl
    rfl
  · have htable := h.table.internAll .terminal (input.map String.singleton)
    refine SymbolTable.eq_of_map_text htable (fun x hx => SymbolTable.internAll_mem x ?_) ?_
    · exact hsymbols ▸ List.mem_cons_of_mem a hx
    · exact fun x hx => SymbolTable.mem_internAll_of_mem (List.mem_singleton.mp hx ▸ h.marker_mem)

omit h in
theorem exists_first {input : String} (hend : p.EndsWithMarker input.toList) {m : Char}
    (hmarker : p.grammar.endMarker.text = String.singleton m) :
    ∃ c cs a rest, input.toList = c :: cs ∧ (p.prepare input.toList).1 = a :: rest ∧
      a.text = String.singleton c ∧ rest.map Symbol.text = cs.map String.singleton := by
  have hne : input.toList ≠ [] := by
    rintro hnil
    rw [EndsWithMarker, hmarker, hnil] at hend
    simp at hend
  obtain ⟨c, cs, hinput⟩ := List.exists_cons_of_ne_nil hne
  have htexts := map_text_prepare (p := p) input.toList
  rw [hinput, List.map_cons, List.map_eq_cons_iff] at htexts
  obtain ⟨a, rest, hsymbols, ha, hrest⟩ := htexts
  exact ⟨c, cs, a, rest, hinput, hinput ▸ hsymbols, ha, hrest⟩

section Outcome

variable {input : String} {c m : Char} (hend : p.EndsWithMarker input.toList)
  (hstart : p.startText = String.singleton c)
  (hmarker : p.grammar.endMarker.text = String.singleton m)

include hend hstart hmarker

theorem exists_stuckOnStart_iff :
    (∃ s b trace, p.StuckOnStart input s b trace) ↔ input.toList.head? ≠ some c := by
  obtain ⟨d, cs, a, rest, hinput, hsymbols, ha, -⟩ := exists_first hend hmarker
  have hmatches : a.text = p.startText ↔ d = c := by rw [ha, hstart, singleton_inj]
  rw [hinput, List.head?_cons, Ne, Option.some_inj, ← hmatches]
  constructor
  · rintro ⟨s, b, trace, hstuck⟩ heq
    have herror := hstuck.error 2 (by decide)
    rcases h.parse_matched hend hsymbols heq 0 with ⟨⟨_, hparse⟩, -⟩ | ⟨⟨_, _, _, hparse⟩, -⟩ <;>
      cases herror.symm.trans hparse
  · intro hne
    exact ⟨_, _, _, h.stuckOnStart hend hsymbols hne⟩

theorem accepts_iff :
    (∃ limit trace, p.parse limit input = some (.ok trace)) ↔ input.toList = [c, m] := by
  obtain ⟨d, cs, a, rest, hinput, hsymbols, ha, hrest⟩ := exists_first hend hmarker
  have hmatches : a.text = p.startText ↔ d = c := by rw [ha, hstart, singleton_inj]
  rw [hinput, List.cons_eq_cons, ← hmatches, ← h.rest_eq_iff hsymbols hmarker hrest]
  constructor
  · rintro ⟨limit, trace, hparse⟩
    have hlonger := p.parse_mono (Nat.le_add_right limit 2) hparse
    by_cases heq : a.text = p.startText
    · rcases h.parse_matched hend hsymbols heq limit with ⟨-, hlast⟩ | ⟨⟨_, _, _, herror⟩, -⟩
      · exact ⟨heq, hlast⟩
      · cases hlonger.symm.trans herror
    · cases hlonger.symm.trans ((h.stuckOnStart hend hsymbols heq).error _ (by omega))
  · rintro ⟨heq, hlast⟩
    rcases h.parse_matched hend hsymbols heq 0 with ⟨⟨trace, hparse⟩, -⟩ | ⟨-, hmore⟩
    · exact ⟨_, trace, hparse⟩
    · exact absurd hlast hmore

end Outcome

end LacksStart

end Parser

theorem Analysis.lacksStart {config : GrammarConfig} {text : String} {g : Grammar} {a : Analysis}
    (hread : Grammar.read config text = .ok g) (hconfig : a.config = config)
    (hgrammar : a.grammar = g) (htable : a.table = Solver.tableOf g a.sets) {c : Char}
    (hstart : config.startSymbol = String.singleton c) (hmissing : c ∉ text.toList)
    (hempty : config.startSymbol ≠ config.emptyMarker)
    (hend : config.startSymbol ≠ config.endMarker)
    (hmarkers : config.endMarker ≠ config.emptyMarker) : a.parser.LacksStart := by
  subst hconfig hgrammar
  have hg := Grammar.wellFormed_of_read hread
  have hlookup : a.grammar.symbols.lookup a.config.startSymbol = none := by
    apply Grammar.lookup_eq_none hread hempty hend
    intro r hr d hd heq
    obtain ⟨line, hline, hrule⟩ := List.mem_filterMap.mp hr
    obtain rfl : c = d := singleton_inj.mp (hstart.symm.trans heq)
    exact hmissing (Text.mem_of_mem_splitOn hline (Rule.mem_of_mem_chars hrule hd))
  have hmissing := SymbolTable.lookup_eq_none_iff.mp hlookup
  refine ⟨hg.table, hmissing, (Grammar.start_of_read hread).trans hlookup, ?_, hg.end_mem, ?_⟩
  · intro x hrow
    have hleft : x ∈ a.grammar.nonTerminals := by
      rw [Analysis.parser, htable] at hrow
      exact ParsingTable.row_isSome_ofEntries.mp hrow
    obtain ⟨p, hp, rfl⟩ := List.mem_map.mp hleft
    exact hg.left_mem p hp
  · intro hkind
    have hsame := congrArg Symbol.text (hg.empty_unique _ hg.end_mem hkind)
    rw [Grammar.endMarker_of_read hread, Grammar.empty_of_read hread] at hsame
    exact hmarkers (hsame.trans SymbolTable.text_intern)

/-- Without the start character in the grammar, exactly the inputs that do not begin with it are
refused for a start symbol that is undefined, and only the start character alone is accepted. -/
theorem Analysis.parser_without_start {text : String} {g : Grammar}
    (hread : Grammar.read {} text = .ok g) (hmissing : 'S' ∉ text.toList) :
    ∃ a, Analysis.load {} text = .ok a ∧ a.parser.startText = "S" ∧
      a.parser.grammar.endMarker.text = "#" ∧
      ∀ input : String, a.parser.EndsWithMarker input.toList →
        ((∃ s b trace, a.parser.StuckOnStart input s b trace) ↔ input.toList.head? ≠ some 'S') ∧
        ((∃ limit trace, a.parser.parse limit input = some (.ok trace)) ↔ input = "S#") := by
  obtain ⟨a, hload, hconfig, hgrammar, -, htable⟩ := Analysis.exists_load hread
  have hlacks : a.parser.LacksStart := Analysis.lacksStart hread hconfig hgrammar htable
    (c := 'S') rfl hmissing (by decide) (by decide) (by decide)
  have hstart : a.parser.startText = "S" := by
    rw [Analysis.parser, hconfig]
  have hmarker : a.parser.grammar.endMarker.text = "#" := by
    rw [Analysis.parser, hgrammar]
    exact Grammar.endMarker_of_read hread
  refine ⟨a, hload, hstart, hmarker, fun input hend => ?_⟩
  have haccepts := hlacks.accepts_iff hend (c := 'S') (m := '#') hstart hmarker
  rw [show (['S', '#'] : List Char) = "S#".toList from rfl, String.toList_inj] at haccepts
  exact ⟨hlacks.exists_stuckOnStart_iff (m := '#') hend hstart hmarker, haccepts⟩

/-- The text has an arrow and a bar as characters of its rules, and lower case only beside. -/
theorem Analysis.parser_without_start_refuses : ∃ g a,
    Grammar.read {} "A->a-|>\nb->A" = .ok g ∧ 'S' ∉ "A->a-|>\nb->A".toList ∧
      Analysis.load {} "A->a-|>\nb->A" = .ok a ∧ a.parser.EndsWithMarker "aSb#".toList ∧
      ∃ s b trace, a.parser.StuckOnStart "aSb#" s b trace := by
  obtain ⟨g, hg, -⟩ : ∃ g, Grammar.read {} "A->a-|>\nb->A" = .ok g ∧ True := by decide +kernel
  have hmissing : 'S' ∉ "A->a-|>\nb->A".toList := by decide
  obtain ⟨a, hload, -, hmarker, hanswers⟩ := parser_without_start hg hmissing
  have hend : a.parser.EndsWithMarker "aSb#".toList := by
    rw [Parser.EndsWithMarker, hmarker]
    decide
  exact ⟨g, a, hg, hmissing, hload, hend, (hanswers "aSb#" hend).1.mpr (by decide)⟩

/-- The start character alone is accepted although no rule mentions it. -/
theorem Analysis.parser_without_start_accepts : ∃ g a trace,
    Grammar.read {} "A->a" = .ok g ∧ 'S' ∉ "A->a".toList ∧ Analysis.load {} "A->a" = .ok a ∧
      a.parser.EndsWithMarker "S#".toList ∧ a.parser.parse 2 "S#" = some (.ok trace) ∧
      ¬∃ s b stuck, a.parser.StuckOnStart "S#" s b stuck := by
  obtain ⟨g, hg, -⟩ : ∃ g, Grammar.read {} "A->a" = .ok g ∧ True := by decide +kernel
  obtain ⟨a, hload, hend, hparse⟩ : ∃ a, Analysis.load {} "A->a" = .ok a ∧
      a.parser.EndsWithMarker "S#".toList ∧
        ((a.parser.parse 2 "S#").bind Except.toOption).isSome := by decide +kernel
  obtain ⟨trace, htrace⟩ : ∃ trace, a.parser.parse 2 "S#" = some (.ok trace) := by
    obtain ⟨trace, htrace⟩ := Option.isSome_iff_exists.mp hparse
    obtain ⟨_ | accepted, houtcome, htrace⟩ := Option.bind_eq_some_iff.mp htrace
    · cases htrace
    · exact ⟨accepted, houtcome⟩
  refine ⟨g, a, trace, hg, by decide, hload, hend, htrace, ?_⟩
  rintro ⟨s, b, stuck, hstuck⟩
  cases htrace.symm.trans (hstuck.error 2 (by decide))

end GrammarLab
