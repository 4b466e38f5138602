import Mathlib
import GrammarLab.Proofs.FirstSights

/-!
# The grammar of a text

A text is accepted if each line that is not blank holds a rule, and then the rules say all of its
grammar: the productions with their candidates in order, the numbered symbols with their kinds, and
the terminals.
-/

namespace GrammarLab

def Text.content (text : String) : List (List Char) :=
  ((text.toList.splitOn '\n').map (trimEnd fun c => c = '\r')).filter
    fun line => line.any fun c => ¬IsBlank c

/-- An arrow stands behind the first character, and something behind the arrow. -/
def Text.HoldsRule (line : List Char) : Prop :=
  4 ≤ line.length ∧ (line.drop 1).take 2 = ['-', '>']

instance (line : List Char) : Decidable (Text.HoldsRule line) :=
  inferInstanceAs (Decidable (_ ∧ _))

/-- The rule written on a line: the first character, and what is left and right of each bar behind
the arrow. -/
structure Rule.StandsOn (r : Rule) (line : List Char) : Prop where
  left : line.head? = some r.left
  alternatives : r.alternatives = (line.drop 3).splitOn '|'

def Production.entry (p : Production) : String × List (List String) := (p.left.text, p.spelling)

def GrammarConfig.sights (config : GrammarConfig) (rules : List Rule) : List (String × Kind) :=
  (config.emptyMarker, .empty) :: rules.flatMap (Rule.sights config)

/-- The grammar holds what the rules say and nothing else. -/
structure Grammar.OfRules (config : GrammarConfig) (rules : List Rule) (g : Grammar) : Prop where
  productions : g.productions.map Production.entry = (firsts Rule.left rules).map
    fun r => (String.singleton r.left, config.alternatives rules r.left)
  nonempty : ∀ p ∈ g.productions, ∀ c ∈ p.candidates, c ≠ []
  known : ∀ p ∈ g.productions, p.left ∈ g.symbols.symbols ∧
    ∀ c ∈ p.candidates, ∀ x ∈ c, x ∈ g.symbols.symbols
  symbols : g.symbols = .ofSights (config.sights rules ++ [(config.endMarker, .terminal)])
  numbered : g.symbols.WellFormed
  terminals : ∀ x, x ∈ g.terminals ↔
    x.IsTerminal ∧ ∃ p ∈ g.productions, ∃ c ∈ p.candidates, x ∈ c
  empty : g.symbols.lookup config.emptyMarker = some g.empty
  endMarker : g.symbols.lookup config.endMarker = some g.endMarker
  start : g.start = g.symbols.lookup config.startSymbol

section Lines

variable {line : List Char}

theorem Rule.exists_ofLine?_iff :
    (∃ r, Rule.ofLine? line = some r) ↔ Text.HoldsRule line := by
  unfold Rule.ofLine? Text.HoldsRule
  split
  · simp
  · next hno =>
    rcases line with _ | ⟨a, _ | ⟨b, _ | ⟨c, _ | ⟨d, rest⟩⟩⟩⟩ <;> simp
    rintro rfl rfl
    exact hno a d rest rfl

theorem Rule.standsOn_of_ofLine? {r : Rule} (h : Rule.ofLine? line = some r) :
    r.StandsOn line := by
  obtain ⟨body, -, rfl, halternatives⟩ := Rule.ofLine?_eq_some_iff.mp h
  exact ⟨rfl, halternatives⟩

theorem Text.map_text_contentLines (text : String) :
    (contentLines text.toList).map Line.text = content text := by
  rw [content, ← map_text_lines, List.filter_map]
  congr 1
  apply List.filter_congr
  intro l _
  rw [Bool.eq_iff_iff]
  simp [Line.Blank]

theorem Rule.forall₂_standsOn {ls : List Text.Line}
    (h : ∀ l ∈ ls, ∃ r, Rule.ofLine? l.text = some r) :
    List.Forall₂ Rule.StandsOn (ls.filterMap fun l => Rule.ofLine? l.text)
      (ls.map Text.Line.text) := by
  induction ls with
  | nil => exact .nil
  | cons l ls ih =>
    obtain ⟨⟨r, hr⟩, hls⟩ := List.forall_mem_cons.mp h
    simp only [List.filterMap_cons, hr, List.map_cons]
    exact .cons (standsOn_of_ofLine? hr) (ih hls)

end Lines

theorem map_eq_map_of_map_eq {α β γ δ : Type} {f : α → γ} {g : β → γ} {f' : α → δ} {g' : β → δ}
    {as : List α} {bs : List β} (h : as.map f = bs.map g)
    (hfix : ∀ a ∈ as, ∀ b, f a = g b → f' a = g' b) : as.map f' = bs.map g' := by
  induction as generalizing bs with
  | nil =>
    cases bs with
    | nil => rfl
    | cons b bs => cases h
  | cons a as ih =>
    cases bs with
    | nil => cases h
    | cons b bs =>
      obtain ⟨hab, hrest⟩ := List.cons.inj h
      obtain ⟨hfirst, hlater⟩ := List.forall_mem_cons.mp hfix
      exact congrArg₂ List.cons (hfirst b hab) (ih hrest hlater)

theorem GrammarConfig.spell_ne_nil (config : GrammarConfig) (cs : List Char) :
    config.spell cs ≠ [] := by
  cases cs with
  | nil => simp [spell]
  | cons c cs => simp [spell]

theorem Production.exists_gather {left : Symbol} {cs : List Candidate} {ps : List Production}
    {P : Candidate → Prop} : (∃ p ∈ gather left cs ps, ∃ c ∈ p.candidates, P c) ↔
      (∃ p ∈ ps, ∃ c ∈ p.candidates, P c) ∨ ∃ c ∈ cs, P c := by
  induction ps with
  | nil => simp [gather]
  | cons q ps ih =>
    rw [gather]
    split
    · simp only [List.exists_mem_cons_iff, List.mem_append, or_and_right, exists_or]
      exact or_right_comm
    · simp only [List.exists_mem_cons_iff, ih, or_assoc]

namespace Draft

variable {config : GrammarConfig} {d : Draft} {rules : List Rule}

structure Builds (config : GrammarConfig) (rules : List Rule) (d : Draft) : Prop extends
    Reads config rules d where
  symbols : d.symbols = .ofSights (config.sights rules)
  lefts : d.productions.map (fun p => p.left.text) =
    (firsts Rule.left rules).map fun r => String.singleton r.left
  terminals : ∀ x, x ∈ d.terminals ↔
    x.IsTerminal ∧ ∃ p ∈ d.productions, ∃ c ∈ p.candidates, x ∈ c

theorem builds_initial (config : GrammarConfig) : (initial config).Builds config [] := by
  refine ⟨reads_initial config, rfl, rfl, fun x => ?_⟩
  simp [initial]

theorem Builds.mem_lefts_iff (h : d.Builds config rules) {left : Symbol} {c : Char}
    (hleft : left.text = String.singleton c)
    (hsame : ∀ p ∈ d.productions, p.left.text = String.singleton c → p.left = left) :
    left ∈ d.productions.map Production.left ↔ c ∈ rules.map Rule.left := by
  have hfirsts : c ∈ (firsts Rule.left rules).map Rule.left ↔ c ∈ rules.map Rule.left :=
    mem_map_firsts
  have htexts : String.singleton c ∈ d.productions.map (fun p => p.left.text) ↔
      c ∈ rules.map Rule.left := by
    rw [h.lefts, ← hfirsts, List.mem_map, List.mem_map]
    simp only [singleton_inj]
  rw [← htexts]
  constructor
  · intro hmem
    obtain ⟨p, hp, rfl⟩ := List.mem_map.mp hmem
    exact List.mem_map.mpr ⟨p, hp, hleft⟩
  · intro hmem
    obtain ⟨p, hp, htext⟩ := List.mem_map.mp hmem
    exact List.mem_map.mpr ⟨p, hp, hsame p hp htext⟩

/-- A rule adds its texts to the table, its alternatives to the production of its left character,
and their terminals to the terminals. -/
theorem Builds.readRule (h : d.Builds config rules) (r : Rule) :
    (d.readRule config config.emptySymbol r).Builds config (rules ++ [r]) := by
  obtain ⟨left, cs, hleft, -, hproductions, hsame, hterminals⟩ := exists_readRule h.sound r
  refine ⟨h.toReads.readRule r, ?_, ?_, fun x => ?_⟩
  · rw [symbols_readRule, h.symbols, SymbolTable.internSights_ofSights, GrammarConfig.sights,
      GrammarConfig.sights, List.flatMap_append, List.flatMap_singleton, List.cons_append]
  · have htexts : ∀ ps : List Production, ps.map (fun p => p.left.text) =
        (ps.map Production.left).map Symbol.text := fun ps => List.map_map.symm
    rw [hproductions, htexts, Production.lefts_gather, firsts_append_singleton, List.map_append,
      ← h.lefts, htexts]
    simp only [h.mem_lefts_iff hleft hsame]
    split
    · rw [List.map_nil, List.append_nil]
    · rw [List.map_append, List.map_singleton, List.map_singleton, hleft]
  · rw [hterminals, h.terminals, hproductions, ← and_or_left]
    exact and_congr Iff.rfl Production.exists_gather.symm

theorem Builds.readLines {ls : List Text.Line} {e : Draft} (h : d.Builds config rules)
    (hread : d.readLines config config.emptySymbol ls = (e, none)) :
    e.Builds config (rules ++ ls.filterMap fun l => Rule.ofLine? l.text) :=
  readLines_preserves (Builds config) (fun _ _ r hd => hd.readRule r) rules h hread

theorem Builds.entries (h : d.Builds config rules) :
    d.productions.map Production.entry = (firsts Rule.left rules).map
      fun r => (String.singleton r.left, config.alternatives rules r.left) := by
  apply map_eq_map_of_map_eq h.lefts
  intro p hp r htext
  obtain ⟨c, hc, -, hspelling⟩ := h.gathers.spelled p hp
  obtain rfl : r.left = c := singleton_inj.mp (htext.symm.trans hc)
  exact congrArg₂ Prod.mk htext hspelling

theorem Builds.ne_nil (h : d.Builds config rules) {p : Production} (hp : p ∈ d.productions)
    {c : Candidate} (hc : c ∈ p.candidates) : c ≠ [] := by
  obtain ⟨b, -, -, hspelling⟩ := h.gathers.spelled p hp
  have hmem : c.map Symbol.text ∈ config.alternatives rules b :=
    hspelling ▸ List.mem_map_of_mem hc
  obtain ⟨r, -, hr⟩ := List.mem_flatMap.mp hmem
  obtain ⟨cs, -, hcs⟩ := List.mem_map.mp hr
  rintro rfl
  exact config.spell_ne_nil cs hcs

theorem Builds.ofRules (h : d.Builds config rules) : (d.toGrammar config).OfRules config rules := by
  have hnumbered : (d.toGrammar config).symbols.WellFormed := h.sound.reads.wellFormed.intern _ _
  have hgrows : ∀ x ∈ d.symbols.symbols, x ∈ (d.toGrammar config).symbols.symbols :=
    fun x hx => SymbolTable.mem_intern_of_mem hx
  have hend : (d.toGrammar config).endMarker ∈ (d.toGrammar config).symbols.symbols :=
    SymbolTable.intern_mem
  have hendText : (d.toGrammar config).endMarker.text = config.endMarker := SymbolTable.text_intern
  refine
    { productions := h.entries
      nonempty := fun p hp c hc => h.ne_nil hp hc
      known := fun p hp => ⟨hgrows _ (h.sound.left_mem p hp), fun c hc x hx =>
        hgrows x (h.sound.candidate_mem p hp c hc x hx)⟩
      symbols := ?_
      numbered := hnumbered
      terminals := h.terminals
      empty := hnumbered.lookup_text (hgrows _ h.sound.reads.empty_mem)
      endMarker := hendText ▸ hnumbered.lookup_text hend
      start := rfl }
  rw [← SymbolTable.intern_ofSights, ← h.symbols]
  rfl

end Draft

theorem Draft.exists_builds (config : GrammarConfig) {ls : List Text.Line}
    (h : ∀ l ∈ ls, Text.HoldsRule l.text) :
    ∃ rules d, (initial config).readLines config config.emptySymbol ls = (d, none) ∧
      d.Builds config rules ∧ List.Forall₂ Rule.StandsOn rules (ls.map Text.Line.text) := by
  have hrules : ∀ l ∈ ls, ∃ r, Rule.ofLine? l.text = some r :=
    fun l hl => Rule.exists_ofLine?_iff.mpr (h l hl)
  have hread : (initial config).readLines config config.emptySymbol ls = (_, none) :=
    Prod.ext rfl (readLines_eq_none_iff.mpr fun l hl => Option.isSome_iff_exists.mpr (hrules l hl))
  exact ⟨_, _, hread, (builds_initial config).readLines hread, Rule.forall₂_standsOn hrules⟩

theorem Grammar.exists_read_iff_holdsRule {config : GrammarConfig} {text : String} :
    (∃ g, Grammar.read config text = .ok g) ↔ ∀ l ∈ Text.content text, Text.HoldsRule l := by
  simp only [exists_read_iff_readLines, Draft.readLines_eq_none_iff, Option.isSome_iff_exists,
    ← Text.map_text_contentLines, List.forall_mem_map, Rule.exists_ofLine?_iff]

theorem Grammar.ofRules_of_read {config : GrammarConfig} {text : String} {g : Grammar}
    (h : Grammar.read config text = .ok g) : g.OfRules config (Rule.ofText text) := by
  rw [Grammar.read, Reader.read] at h
  split at h
  · cases h
  · next d hd =>
    cases h
    have hbuilds := (Draft.builds_initial config).readLines hd
    rw [List.nil_append, Rule.filterMap_contentLines] at hbuilds
    exact hbuilds.ofRules

theorem Grammar.OfRules.exists_production {config : GrammarConfig} {rules : List Rule} {g : Grammar}
    (h : g.OfRules config rules) {r : Rule} (hr : r ∈ rules) :
    ∃ p ∈ g.productions, p.left.text = String.singleton r.left := by
  obtain ⟨q, hq, hleft⟩ := exists_mem_firsts Rule.left hr
  have hentry : (String.singleton q.left, config.alternatives rules q.left) ∈
      g.productions.map Production.entry := h.productions ▸ List.mem_map_of_mem hq
  obtain ⟨p, hp, hsame⟩ := List.mem_map.mp hentry
  exact ⟨p, hp, hleft ▸ congrArg Prod.fst hsame⟩

theorem Grammar.OfRules.mem_terminals_iff {config : GrammarConfig} {rules : List Rule} {g : Grammar}
    (h : g.OfRules config rules) (u : String) : (∃ x ∈ g.terminals, x.text = u) ↔
      g.symbols.kindAt u = some .terminal ∧
        ∃ e ∈ g.productions.map Production.entry, ∃ ts ∈ e.2, u ∈ ts := by
  have hkind : ∀ x ∈ g.symbols.symbols, g.symbols.kindAt x.text = some x.kind := by
    intro x hx
    rw [SymbolTable.kindAt, h.numbered.lookup_text hx]
    rfl
  constructor
  · rintro ⟨x, hx, rfl⟩
    obtain ⟨hterminal, p, hp, c, hc, hxc⟩ := (h.terminals x).mp hx
    refine ⟨?_, p.entry, List.mem_map_of_mem hp, c.map Symbol.text, ?_, List.mem_map_of_mem hxc⟩
    · exact (hkind x ((h.known p hp).2 c hc x hxc)).trans (congrArg some hterminal)
    · exact List.mem_map_of_mem hc
  · rintro ⟨hterminal, _, he, _, hts, hu⟩
    obtain ⟨p, hp, rfl⟩ := List.mem_map.mp he
    obtain ⟨c, hc, rfl⟩ := List.mem_map.mp hts
    obtain ⟨x, hxc, rfl⟩ := List.mem_map.mp hu
    rw [hkind x ((h.known p hp).2 c hc x hxc)] at hterminal
    exact ⟨x, (h.terminals x).mpr ⟨Option.some.inj hterminal, p, hp, c, hc, hxc⟩, rfl⟩

end GrammarLab
