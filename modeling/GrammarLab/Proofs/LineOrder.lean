import Mathlib
import GrammarLab.Proofs.RenumberedParsing
import GrammarLab.Proofs.Rules

/-!
# The order of lines

Lines of different left characters may stand in any order: with iterated passes and left characters
that are capital letters, two texts that differ in this order have analyses that show the same. The
kinds of symbols depend on their characters alone, and the productions on the lines of each left
character, so that the grammars differ by a renumbering.
-/

namespace GrammarLab

def Text.leftOf? (line : List Char) : Option Char := (Rule.ofRaw? line).map Rule.left

def Text.linesOf (c : Char) (text : String) : List (List Char) :=
  (text.toList.splitOn '\n').filter fun line => leftOf? line = some c

/-- The second text has the lines of the first in an order that keeps lines of one left character
in theirs. -/
structure Text.Reorders (text text' : String) : Prop where
  lines : (text.toList.splitOn '\n').Perm (text'.toList.splitOn '\n')
  order : ∀ r ∈ Rule.ofText text, linesOf r.left text' = linesOf r.left text

instance (text text' : String) : Decidable (Text.Reorders text text') :=
  decidable_of_iff ((text.toList.splitOn '\n').Perm (text'.toList.splitOn '\n') ∧
    ∀ r ∈ Rule.ofText text, Text.linesOf r.left text' = Text.linesOf r.left text)
    ⟨fun h => ⟨h.1, h.2⟩, fun h => ⟨h.lines, h.order⟩⟩

section Rules

variable {config : GrammarConfig} {text text' : String}

theorem Rule.filter_ofText (c : Char) (text : String) :
    ((Rule.ofText text).filter fun r => r.left = c) =
      (Text.linesOf c text).filterMap Rule.ofRaw? := by
  rw [Rule.ofText, Text.linesOf, List.filter_filterMap, List.filterMap_filter]
  congr 1
  funext line
  rw [Text.leftOf?]
  cases hrule : Rule.ofRaw? line with
  | none => simp
  | some r => by_cases hc : r.left = c <;> simp [hc]

theorem Text.Reorders.rules (h : Reorders text text') :
    (Rule.ofText text).Perm (Rule.ofText text') := h.lines.filterMap _

theorem Text.Reorders.alternatives (h : Reorders text text') {r : Rule}
    (hr : r ∈ Rule.ofText text) : config.alternatives (Rule.ofText text') r.left =
      config.alternatives (Rule.ofText text) r.left := by
  rw [GrammarConfig.alternatives, GrammarConfig.alternatives, Rule.filter_ofText,
    Rule.filter_ofText, h.order r hr]

theorem Text.Reorders.readable (h : Reorders text text')
    (hread : ∃ g, Grammar.read config text = .ok g) : ∃ g, Grammar.read config text' = .ok g := by
  rw [Grammar.exists_read_iff] at hread ⊢
  intro line hline
  exact hread line (h.lines.mem_iff.mpr hline)

end Rules

section Kinds

variable {config : GrammarConfig}

theorem Grammar.kindAt_of_reorders {text text' : String} {g h : Grammar}
    (hg : Grammar.read config text = .ok g) (hh : Grammar.read config text' = .ok h)
    (hlefts : ∀ r ∈ Rule.ofText text, 'A' ≤ r.left ∧ r.left ≤ 'Z')
    (horder : Text.Reorders text text') (u : String) :
    h.symbols.kindAt u = g.symbols.kindAt u := by
  have hmem : ∀ r, r ∈ Rule.ofText text' ↔ r ∈ Rule.ofText text :=
    fun r => horder.rules.mem_iff.symm
  refine Grammar.kindAt_congr hg hh hlefts (fun r hr => hlefts r ((hmem r).mp hr)) ?_ u
  intro c _
  simp only [hmem]

end Kinds

section Grammars

theorem Grammar.WellFormed.eq_of_spelling {g : Grammar} (hg : g.WellFormed) {p q : Production}
    (hp : p ∈ g.productions) (hleft : q.left ∈ g.symbols.symbols)
    (hcandidates : ∀ c ∈ q.candidates, ∀ x ∈ c, x ∈ g.symbols.symbols)
    (htext : p.left.text = q.left.text) (hspelling : p.spelling = q.spelling) : p = q := by
  have hlefts : p.left = q.left := SymbolTable.eq_of_text hg.table (hg.left_mem p hp) hleft htext
  have hall : p.candidates = q.candidates :=
    eq_of_map_eq (fun _ _ hc hd => SymbolTable.eq_of_map_text hg.table hc hd)
      (hg.candidate_mem p hp) hcandidates hspelling
  obtain ⟨x, cs⟩ := p
  obtain ⟨y, ds⟩ := q
  exact congrArg₂ Production.mk hlefts hall

variable {config : GrammarConfig} {text text' : String} {g h : Grammar}

theorem Grammar.exists_spelled_of_reorders (hg : Grammar.read config text = .ok g)
    (hh : Grammar.read config text' = .ok h) (horder : Text.Reorders text text') {p : Production}
    (hp : p ∈ g.productions) :
    ∃ q ∈ h.productions, q.left.text = p.left.text ∧ q.spelling = p.spelling := by
  obtain ⟨d, hd, rfl⟩ := Grammar.reads_of_read hg
  obtain ⟨e, he, rfl⟩ := Grammar.reads_of_read hh
  obtain ⟨c, htext, ⟨r, hr, rfl⟩, hspelling⟩ := hd.gathers.spelled p hp
  obtain ⟨q, hq, hqtext⟩ := he.gathers.gathered r (horder.rules.mem_iff.mp hr)
  obtain ⟨c, hqc, -, hqspelling⟩ := he.gathers.spelled q hq
  obtain rfl : r.left = c := singleton_inj.mp (hqtext.symm.trans hqc)
  refine ⟨q, hq, hqtext.trans htext.symm, ?_⟩
  rw [hqspelling, hspelling, horder.alternatives hr]

theorem Grammar.exists_left_of_reorders (hg : Grammar.read config text = .ok g)
    (hh : Grammar.read config text' = .ok h) (horder : Text.Reorders text text') {q : Production}
    (hq : q ∈ h.productions) : ∃ p ∈ g.productions, p.left.text = q.left.text := by
  obtain ⟨d, hd, rfl⟩ := Grammar.reads_of_read hg
  obtain ⟨e, he, rfl⟩ := Grammar.reads_of_read hh
  obtain ⟨c, htext, ⟨r, hr, rfl⟩, -⟩ := he.gathers.spelled q hq
  obtain ⟨p, hp, hptext⟩ := hd.gathers.gathered r (horder.rules.mem_iff.mpr hr)
  exact ⟨p, hp, hptext.trans htext.symm⟩

theorem Grammar.exists_renumbers_of_reorders (hg : Grammar.read config text = .ok g)
    (hh : Grammar.read config text' = .ok h)
    (hlefts : ∀ r ∈ Rule.ofText text, 'A' ≤ r.left ∧ r.left ≤ 'Z')
    (horder : Text.Reorders text text') : ∃ π : Equiv.Perm Nat, g.Renumbers π h := by
  have hgw := Grammar.wellFormed_of_read hg
  have hhw := Grammar.wellFormed_of_read hh
  obtain ⟨π, hsymbols⟩ := SymbolTable.exists_renumbers hgw.table hhw.table
    (Grammar.kindAt_of_reorders hg hh hlefts horder)
  have hmem : ∀ x ∈ g.symbols.symbols, x.renumber π ∈ h.symbols.symbols :=
    fun x hx => hsymbols.mem hgw.table hx
  have hforth : ∀ p ∈ g.productions, p.renumber π ∈ h.productions := by
    intro p hp
    obtain ⟨q, hq, htext, hspelling⟩ := Grammar.exists_spelled_of_reorders hg hh horder hp
    have hsame : q = p.renumber π := by
      refine hhw.eq_of_spelling (q := p.renumber π) hq (hmem _ (hgw.left_mem p hp)) ?_ htext ?_
      · intro c hc x hx
        obtain ⟨d, hd, rfl⟩ := List.mem_map.mp hc
        obtain ⟨y, hy, rfl⟩ := List.mem_map.mp hx
        exact hmem y (hgw.candidate_mem p hp d hd y hy)
      · rw [hspelling, Production.spelling_renumber]
    exact hsame ▸ hq
  refine ⟨π, hsymbols, ?_, ?_, ?_, ?_⟩
  · have hnodup : (g.productions.map (Production.renumber π)).Nodup :=
      (hgw.lefts_nodup.of_map _).map Production.renumber_injective
    rw [List.perm_ext_iff_of_nodup hnodup (hhw.lefts_nodup.of_map _)]
    intro q
    rw [List.mem_map]
    constructor
    · rintro ⟨p, hp, rfl⟩
      exact hforth p hp
    · intro hq
      obtain ⟨p, hp, htext⟩ := Grammar.exists_left_of_reorders hg hh horder hq
      refine ⟨p, hp, List.inj_on_of_nodup_map hhw.lefts_nodup (hforth p hp) hq ?_⟩
      exact SymbolTable.eq_of_text hhw.table (hmem _ (hgw.left_mem p hp)) (hhw.left_mem q hq) htext
  · apply SymbolTable.eq_of_text hhw.table hhw.empty_mem (hmem _ hgw.empty_mem)
    rw [Symbol.text_renumber, Grammar.empty_of_read hg, Grammar.empty_of_read hh]
  · apply SymbolTable.eq_of_text hhw.table hhw.end_mem (hmem _ hgw.end_mem)
    rw [Symbol.text_renumber, Grammar.endMarker_of_read hg, Grammar.endMarker_of_read hh]
  · rw [Grammar.start_of_read hg, Grammar.start_of_read hh, hsymbols.lookup]

end Grammars

section Analyses

structure SymbolTable.SameText (t t' : SymbolTable) (x y : Symbol) : Prop where
  left : x ∈ t.symbols
  right : y ∈ t'.symbols
  text : x.text = y.text

def SymbolSet.texts (s : SymbolSet) : List String := s.members.map Symbol.text

def Conflict.spelling (k : Conflict) : String × String × List String × List String :=
  (k.left.text, k.lookahead.text, k.replaced.map Symbol.text, k.replacement.map Symbol.text)

/-- Both analyses hold the same and parse alike, if symbols are compared by their texts. -/
structure Analysis.AgreesWith (a b : Analysis) : Prop where
  kinds : ∀ u, b.grammar.symbols.kindAt u = a.grammar.symbols.kindAt u
  productions : (a.grammar.productions.map fun p => (p.left.text, p.spelling)).Perm
    (b.grammar.productions.map fun p => (p.left.text, p.spelling))
  first : ∀ x y, a.grammar.symbols.SameText b.grammar.symbols x y →
    (a.first x).texts.Perm (b.first y).texts
  follow : ∀ x y, a.grammar.symbols.SameText b.grammar.symbols x y →
    (a.follow x).texts.Perm (b.follow y).texts
  rows : ∀ x y, a.grammar.symbols.SameText b.grammar.symbols x y →
    (b.table.row y).isSome = (a.table.row x).isSome
  cells : ∀ x y u v, a.grammar.symbols.SameText b.grammar.symbols x y →
    a.grammar.symbols.SameText b.grammar.symbols u v →
      (b.table.lookup y v).map (List.map Symbol.text) =
        (a.table.lookup x u).map (List.map Symbol.text)
  conflicts : (a.table.conflicts.map Conflict.spelling).Perm
    (b.table.conflicts.map Conflict.spelling)
  parses : ∀ limit input, (b.parser.parse limit input).map (Parser.shown b.display) =
    (a.parser.parse limit input).map (Parser.shown a.display)

theorem SymbolTable.Renumbers.eq_of_sameText {π : Equiv.Perm Nat} {t t' : SymbolTable}
    (k : t.Renumbers π t') (ht : t.WellFormed) (ht' : t'.WellFormed) {x y : Symbol}
    (h : t.SameText t' x y) : y = x.renumber π :=
  eq_of_text ht' h.right (k.mem ht h.left) h.text.symm

theorem Analysis.agreesWith_of_renumbers {π : Equiv.Perm Nat} {a b : Analysis}
    (hconfig : b.config = a.config) (k : a.grammar.Renumbers π b.grammar)
    (hg : a.grammar.WellFormed) (hh : b.grammar.WellFormed)
    (hs : Solver.Solved a.grammar true a.sets) (hs' : Solver.Solved b.grammar true b.sets)
    (ha : a.table = Solver.tableOf a.grammar a.sets)
    (hb : b.table = Solver.tableOf b.grammar b.sets) : a.AgreesWith b := by
  obtain ⟨hfirst, hfollow⟩ := hs.renumbers k hg hh hs'
  have htable : a.table.Renumbers π b.table := by
    rw [ha, hb]
    exact Solver.tableOf_renumbers k hg hh hs hs'
  have hsame : ∀ {x y}, a.grammar.symbols.SameText b.grammar.symbols x y → y = x.renumber π :=
    fun h => k.symbols.eq_of_sameText hg.table hh.table h
  constructor
  · intro u
    rw [SymbolTable.kindAt, SymbolTable.kindAt, k.symbols.lookup, Option.map_map]
    rfl
  · have hproductions := k.productions.map fun p => (p.left.text, p.spelling)
    simpa [Function.comp_def] using hproductions
  · intro x y h
    obtain rfl := hsame h
    exact hfirst.texts_perm x
  · intro x y h
    obtain rfl := hsame h
    exact hfollow.texts_perm x
  · intro x y h
    obtain rfl := hsame h
    exact htable.rows x
  · intro x y u v hxy huv
    obtain rfl := hsame hxy
    obtain rfl := hsame huv
    rw [htable.cells, Option.map_map]
    congr 1
    funext c
    simp [Function.comp_def]
  · have hspelling : Conflict.spelling ∘ Conflict.renumber π = Conflict.spelling := by
      funext c
      simp [Conflict.spelling, Conflict.renumber, Function.comp_def]
    have hconflicts := htable.conflicts.map Conflict.spelling
    rwa [List.map_map, hspelling] at hconflicts
  · intro limit input
    have hparser : a.parser.Renumbers π b.parser :=
      ⟨k, htable, congrArg GrammarConfig.startSymbol hconfig⟩
    rw [display, display, hconfig]
    exact hparser.shown_parse _ limit input

/-- Reordering lines of different left characters changes nothing but the numbering. -/
theorem Analysis.reordered_lines_agree {config : GrammarConfig} {text text' : String} {g : Grammar}
    (hfix : config.fixpoint = true) (hread : Grammar.read config text = .ok g)
    (hlefts : ∀ r ∈ Rule.ofText text, 'A' ≤ r.left ∧ r.left ≤ 'Z')
    (horder : Text.Reorders text text') :
    ∃ a b, Analysis.load config text = .ok a ∧ Analysis.load config text' = .ok b ∧
      a.AgreesWith b := by
  obtain ⟨h, hread'⟩ := horder.readable ⟨g, hread⟩
  obtain ⟨π, k⟩ := Grammar.exists_renumbers_of_reorders hread hread' hlefts horder
  obtain ⟨a, hload, hconfig, rfl, hs, ha⟩ := Analysis.exists_load hread
  obtain ⟨b, hload', hconfig', rfl, hs', hb⟩ := Analysis.exists_load hread'
  rw [hfix] at hs hs'
  refine ⟨a, b, hload, hload', ?_⟩
  exact agreesWith_of_renumbers (hconfig'.trans hconfig.symm) k
    (Grammar.wellFormed_of_read hread) (Grammar.wellFormed_of_read hread') hs hs' ha hb

/-- Two lines of one left symbol stand around others, one line is blank, and all numbers change. -/
theorem Analysis.reordered_lines_agree_merged :
    ∃ a b, Analysis.load {} "S->AB|c\nA->a|$\n\nB->bS|A\nA->aB\r" = .ok a ∧
      Analysis.load {} "B->bS|A\nA->a|$\nA->aB\r\nS->AB|c\n" = .ok b ∧ a.AgreesWith b := by
  obtain ⟨g, hg, -⟩ : ∃ g,
      Grammar.read {} "S->AB|c\nA->a|$\n\nB->bS|A\nA->aB\r" = .ok g ∧ True := by decide +kernel
  exact reordered_lines_agree rfl hg (by decide +kernel) (by decide +kernel)

end Analyses

end GrammarLab
