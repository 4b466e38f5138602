import Mathlib
import GrammarLab.Assoc
import GrammarLab.Proofs.Pieces
import GrammarLab.Proofs.Reading

/-!
# What a text reads as

The content lines of an accepted text are rules, and these determine its grammar. The kind of a
symbol is the one asked for at the first sight of its text. The production of a left character has
the alternatives of all rules with this left character, in the order of the rules, each symbol
spelled by its character and an alternative without characters by the empty marker.
-/

namespace GrammarLab

namespace SymbolTable

variable {t : SymbolTable} {text : String} {kind : Kind}

def kindAt (t : SymbolTable) (text : String) : Option Kind := (t.lookup text).map Symbol.kind

def internSights (t : SymbolTable) (sights : List (String × Kind)) : SymbolTable :=
  sights.foldl (fun t s => (t.intern s.1 s.2).2) t

theorem WellFormed.lookup_text (ht : t.WellFormed) {x : Symbol} (hx : x ∈ t.symbols) :
    t.lookup x.text = some x := by
  cases hlookup : t.lookup x.text with
  | none => exact absurd (List.mem_map_of_mem hx) (lookup_eq_none_iff.mp hlookup)
  | some y =>
    obtain ⟨hy, htext⟩ := text_of_lookup hlookup
    rw [eq_of_text ht hy hx htext]

theorem lookup_intern (t : SymbolTable) (text : String) (kind : Kind) (u : String) :
    (t.intern text kind).2.lookup u =
      (t.lookup u).or (if u = text then some (t.fresh text kind) else none) := by
  rw [intern]
  cases hlookup : t.lookup text with
  | some s => by_cases hu : u = text <;> simp [hu, hlookup]
  | none =>
    show (t.symbols ++ [t.fresh text kind]).find? _ = _
    rw [List.find?_append, ← lookup]
    by_cases hu : u = text
    · simp [fresh, hu]
    · have hne : text ≠ u := fun h => hu h.symm
      simp [fresh, hu, hne]

theorem kindAt_intern (t : SymbolTable) (text : String) (kind : Kind) (u : String) :
    (t.intern text kind).2.kindAt u = (t.kindAt u).or (if u = text then some kind else none) := by
  rw [kindAt, lookup_intern, Option.map_or]
  by_cases hu : u = text <;> simp [hu, kindAt, fresh]

/-- The first sight of a text counts. -/
theorem kindAt_internSights (t : SymbolTable) (sights : List (String × Kind)) (u : String) :
    (t.internSights sights).kindAt u = (t.kindAt u).or (sights.lookup u) := by
  induction sights generalizing t with
  | nil => simp [internSights]
  | cons s rest ih =>
    have hstep : t.internSights (s :: rest) = (t.intern s.1 s.2).2.internSights rest := rfl
    obtain ⟨text, kind⟩ := s
    rw [hstep, ih, kindAt_intern, Option.or_assoc]
    by_cases hu : u = text
    · simp [hu]
    · simp [List.lookup_cons, hu, beq_false_of_ne hu]

theorem internSights_append (t : SymbolTable) (us vs : List (String × Kind)) :
    t.internSights (us ++ vs) = (t.internSights us).internSights vs := by
  simp [internSights]

end SymbolTable

/-- What a character of an alternative asks for: the empty marker is empty, a letter from A to Z
is a variable, and every other character is a terminal. -/
def GrammarConfig.sight (config : GrammarConfig) (c : Char) : String × Kind :=
  (String.singleton c,
    if String.singleton c = config.emptyMarker then .empty
    else if 'A' ≤ c ∧ c ≤ 'Z' then .variable
    else .terminal)

def GrammarConfig.spell (config : GrammarConfig) : List Char → List String
  | [] => [config.emptyMarker]
  | cs => cs.map String.singleton

def Rule.sights (config : GrammarConfig) (r : Rule) : List (String × Kind) :=
  (String.singleton r.left, .variable) :: r.alternatives.flatten.map config.sight

def Rule.chars (r : Rule) : List Char := r.left :: r.alternatives.flatten

theorem Rule.texts_sights (config : GrammarConfig) (r : Rule) :
    (r.sights config).map Prod.fst = r.chars.map String.singleton := by
  rw [sights, chars, List.map_cons, List.map_cons, List.map_map]
  rfl

namespace Draft

variable {config : GrammarConfig} {d : Draft} {empty : Symbol}

theorem symbols_readSymbols (d : Draft) (cs : List Char) :
    (d.readSymbols config cs).2.symbols = d.symbols.internSights (cs.map config.sight) := by
  induction cs generalizing d with
  | nil => rfl
  | cons c rest ih => exact ih (d.readSymbol config c).2

theorem symbols_readAlternatives (d : Draft) (css : List (List Char)) :
    (d.readAlternatives config empty css).2.symbols =
      d.symbols.internSights (css.flatten.map config.sight) := by
  induction css generalizing d with
  | nil => rfl
  | cons cs rest ih =>
    have hfirst : (d.readAlternative config empty cs).2.symbols =
        d.symbols.internSights (cs.map config.sight) := by
      cases cs with
      | nil => rfl
      | cons c cs => exact symbols_readSymbols d (c :: cs)
    rw [List.flatten_cons, List.map_append, SymbolTable.internSights_append, ← hfirst]
    exact ih (d.readAlternative config empty cs).2

theorem texts_readSymbols (d : Draft) (cs : List Char) :
    (d.readSymbols config cs).1.map Symbol.text = cs.map String.singleton := by
  induction cs generalizing d with
  | nil => rfl
  | cons c rest ih =>
    have hfirst : (d.readSymbol config c).1.text = String.singleton c := SymbolTable.text_intern
    exact congrArg₂ List.cons hfirst (ih (d.readSymbol config c).2)

theorem texts_readAlternatives (hempty : empty.text = config.emptyMarker) (d : Draft)
    (css : List (List Char)) :
    (d.readAlternatives config empty css).1.map (List.map Symbol.text) = css.map config.spell := by
  induction css generalizing d with
  | nil => rfl
  | cons cs rest ih =>
    have hfirst : (d.readAlternative config empty cs).1.map Symbol.text = config.spell cs := by
      cases cs with
      | nil => exact congrArg (fun text => [text]) hempty
      | cons c cs => exact texts_readSymbols d (c :: cs)
    exact congrArg₂ List.cons hfirst (ih (d.readAlternative config empty cs).2)

variable {x : Symbol}

theorem mem_terminals_readSymbol (d : Draft) (c : Char) :
    x ∈ (d.readSymbol config c).2.terminals ↔
      x ∈ d.terminals ∨ x.IsTerminal ∧ x = (d.readSymbol config c).1 := by
  rw [readSymbol]
  dsimp only
  split
  · next hterminal =>
    rw [SymbolSet.mem_insert]
    constructor
    · rintro (rfl | hx)
      · exact .inr ⟨hterminal, rfl⟩
      · exact .inl hx
    · rintro (hx | ⟨-, hx⟩)
      · exact .inr hx
      · exact .inl hx
  · next hother =>
    constructor
    · exact .inl
    · rintro (hx | ⟨hterminal, rfl⟩)
      · exact hx
      · exact absurd hterminal hother

theorem mem_terminals_readSymbols (d : Draft) (cs : List Char) :
    x ∈ (d.readSymbols config cs).2.terminals ↔
      x ∈ d.terminals ∨ x.IsTerminal ∧ x ∈ (d.readSymbols config cs).1 := by
  induction cs generalizing d with
  | nil => simp [readSymbols]
  | cons c rest ih =>
    rw [readSymbols]
    simp only [ih, mem_terminals_readSymbol, List.mem_cons]
    tauto

theorem mem_terminals_readAlternatives (hempty : ¬empty.IsTerminal) (d : Draft)
    (css : List (List Char)) :
    x ∈ (d.readAlternatives config empty css).2.terminals ↔ x ∈ d.terminals ∨
      x.IsTerminal ∧ ∃ c ∈ (d.readAlternatives config empty css).1, x ∈ c := by
  induction css generalizing d with
  | nil => simp [readAlternatives]
  | cons cs rest ih =>
    have hfirst : x ∈ (d.readAlternative config empty cs).2.terminals ↔ x ∈ d.terminals ∨
        x.IsTerminal ∧ x ∈ (d.readAlternative config empty cs).1 := by
      cases cs with
      | nil =>
        have hother : ¬(x.IsTerminal ∧ x ∈ [empty]) := by
          rintro ⟨hterminal, hx⟩
          exact hempty (List.mem_singleton.mp hx ▸ hterminal)
        exact (or_iff_left hother).symm
      | cons c cs => exact mem_terminals_readSymbols d (c :: cs)
    rw [readAlternatives]
    simp only [ih, hfirst, List.exists_mem_cons_iff]
    tauto

end Draft

namespace Production

variable {left : Symbol} {cs : List Candidate} {ps : List Production}

theorem mem_gather_iff (hn : (ps.map Production.left).Nodup) {p : Production} :
    p ∈ gather left cs ps ↔ (p ∈ ps ∧ p.left ≠ left) ∨ (p.left = left ∧
      p.candidates = ((ps.find? fun q => q.left = left).elim [] Production.candidates) ++ cs) := by
  induction ps with
  | nil =>
    obtain ⟨l, ds⟩ := p
    simp [gather]
  | cons q rest ih =>
    obtain ⟨hq, hrest⟩ := List.nodup_cons.mp hn
    by_cases hleft : q.left = left
    · have hothers : ∀ r ∈ rest, r.left ≠ left := by
        rintro r hr rfl
        exact hq (hleft ▸ List.mem_map_of_mem hr)
      obtain ⟨l, ds⟩ := p
      simp only [gather, hleft, if_true, List.mem_cons, List.find?_cons_of_pos,
        decide_true, Option.elim_some, mk.injEq]
      constructor
      · rintro (⟨rfl, rfl⟩ | hr)
        · exact Or.inr ⟨rfl, rfl⟩
        · exact Or.inl ⟨Or.inr hr, hothers _ hr⟩
      · rintro (⟨rfl | hr, hne⟩ | ⟨rfl, rfl⟩)
        · exact absurd hleft hne
        · exact Or.inr hr
        · exact Or.inl ⟨rfl, rfl⟩
    · have hfind : (q :: rest).find? (fun q => q.left = left) =
          rest.find? fun q => q.left = left := List.find?_cons_of_neg (by simpa using hleft)
      simp only [gather, hleft, if_false, List.mem_cons, ih hrest, hfind]
      constructor
      · rintro (rfl | ⟨hp, hne⟩ | hp)
        · exact Or.inl ⟨Or.inl rfl, hleft⟩
        · exact Or.inl ⟨Or.inr hp, hne⟩
        · exact Or.inr hp
      · rintro (⟨rfl | hp, hne⟩ | hp)
        · exact Or.inl rfl
        · exact Or.inr (Or.inl ⟨hp, hne⟩)
        · exact Or.inr (Or.inr hp)

def spelling (p : Production) : List (List String) := p.candidates.map (List.map Symbol.text)

end Production

/-- The spelled alternatives of all rules of a left character, in order. -/
def GrammarConfig.alternatives (config : GrammarConfig) (rules : List Rule) (c : Char) :
    List (List String) :=
  (rules.filter fun r => r.left = c).flatMap fun r => r.alternatives.map config.spell

theorem GrammarConfig.alternatives_append_singleton (config : GrammarConfig) (rules : List Rule)
    (r : Rule) (c : Char) :
    config.alternatives (rules ++ [r]) c = config.alternatives rules c ++
      if r.left = c then r.alternatives.map config.spell else [] := by
  by_cases h : r.left = c <;> simp [alternatives, h]

theorem singleton_inj {c d : Char} : String.singleton c = String.singleton d ↔ c = d := by
  constructor
  · intro h
    have hlist := congrArg String.toList h
    simpa using hlist
  · rintro rfl
    rfl

namespace Draft

variable {config : GrammarConfig} {d : Draft} {rules : List Rule}

/-- The productions of a draft are those of the rules read. -/
structure Gathers (config : GrammarConfig) (rules : List Rule) (d : Draft) : Prop where
  spelled : ∀ p ∈ d.productions, ∃ c, p.left.text = String.singleton c ∧
    (∃ r ∈ rules, r.left = c) ∧ p.spelling = config.alternatives rules c
  gathered : ∀ r ∈ rules, ∃ p ∈ d.productions, p.left.text = String.singleton r.left

theorem Gathers.alternatives_eq_nil (h : Gathers config rules d) {c : Char}
    (hnone : ∀ p ∈ d.productions, p.left.text ≠ String.singleton c) :
    config.alternatives rules c = [] := by
  have hrules : (rules.filter fun r => r.left = c) = [] := by
    apply List.filter_eq_nil_iff.mpr
    intro r hr hleft
    obtain ⟨p, hp, htext⟩ := h.gathered r hr
    exact hnone p hp (by simpa [of_decide_eq_true hleft] using htext)
  rw [GrammarConfig.alternatives, hrules]
  rfl

theorem Gathers.spelling_find (h : Gathers config rules d) {left : Symbol} {c : Char}
    (hleft : left.text = String.singleton c)
    (hsame : ∀ p ∈ d.productions, p.left.text = String.singleton c → p.left = left) :
    ((d.productions.find? fun q => q.left = left).elim [] Production.candidates).map
      (List.map Symbol.text) = config.alternatives rules c := by
  cases hfind : d.productions.find? fun q => q.left = left with
  | none =>
    refine (h.alternatives_eq_nil fun p hp htext => ?_).symm
    have hne := List.find?_eq_none.mp hfind p hp
    exact hne (decide_eq_true (hsame p hp htext))
  | some q =>
    obtain ⟨b, htext, -, hspelling⟩ := h.spelled q (List.mem_of_find?_eq_some hfind)
    have hq : q.left = left := by simpa using List.find?_some hfind
    rw [hq, hleft, singleton_inj] at htext
    rw [htext]
    exact hspelling

theorem exists_readRule (h : d.Sound config) (r : Rule) :
    ∃ left cs, left.text = String.singleton r.left ∧
      cs.map (List.map Symbol.text) = r.alternatives.map config.spell ∧
      (d.readRule config config.emptySymbol r).productions =
        Production.gather left cs d.productions ∧
      (∀ p ∈ d.productions, p.left.text = String.singleton r.left → p.left = left) ∧
      ∀ x, x ∈ (d.readRule config config.emptySymbol r).terminals ↔
        x ∈ d.terminals ∨ x.IsTerminal ∧ ∃ c ∈ cs, x ∈ c := by
  let start : Draft :=
    { d with symbols := (d.symbols.intern (String.singleton r.left) .variable).2 }
  have hstart : start.symbols.Reads config := h.reads.intern r.left (by simp)
  have hempty : config.emptySymbol.text = config.emptyMarker := SymbolTable.text_intern
  have hother : ¬config.emptySymbol.IsTerminal := nofun
  obtain ⟨hext, -⟩ := readAlternatives_extends hstart r.alternatives
  refine ⟨_, _, SymbolTable.text_intern, texts_readAlternatives hempty start r.alternatives,
    congrArg _ hext.productions, fun p hp htext => ?_,
    fun x => mem_terminals_readAlternatives hother start r.alternatives⟩
  have hold : p.left ∈ start.symbols.symbols := SymbolTable.mem_intern_of_mem (h.left_mem p hp)
  exact SymbolTable.eq_of_text hstart.wellFormed hold SymbolTable.intern_mem
    (htext.trans SymbolTable.text_intern.symm)

/-- Rules of one left character are gathered in order, and those of others stay apart. -/
theorem Gathers.readRule (h : Gathers config rules d) (hd : d.Sound config) (r : Rule) :
    Gathers config (rules ++ [r]) (d.readRule config config.emptySymbol r) := by
  obtain ⟨left, cs, hleft, hcs, hproductions, hsame, -⟩ := exists_readRule hd r
  have hmem : ∀ p, p ∈ (d.readRule config config.emptySymbol r).productions ↔ _ :=
    fun p => hproductions ▸ Production.mem_gather_iff hd.lefts_nodup
  have hbefore := h.spelling_find hleft hsame
  constructor
  · intro p hp
    rcases (hmem p).mp hp with ⟨hold, hne⟩ | ⟨hp, hcandidates⟩
    · obtain ⟨c, htext, ⟨q, hq, hqc⟩, hspelling⟩ := h.spelled p hold
      have hc : r.left ≠ c := by
        rintro rfl
        exact hne (hsame p hold htext)
      refine ⟨c, htext, ⟨q, List.mem_append_left _ hq, hqc⟩, ?_⟩
      rw [GrammarConfig.alternatives_append_singleton, if_neg hc, List.append_nil]
      exact hspelling
    · refine ⟨r.left, hp ▸ hleft, ⟨r, by simp, rfl⟩, ?_⟩
      rw [GrammarConfig.alternatives_append_singleton, if_pos rfl, Production.spelling,
        hcandidates, List.map_append, hbefore, hcs]
  · intro q hq
    rcases List.mem_append.mp hq with hq | hq
    · obtain ⟨p, hp, htext⟩ := h.gathered q hq
      by_cases hp' : p.left = left
      · exact ⟨⟨left, _⟩, (hmem _).mpr (Or.inr ⟨rfl, rfl⟩), hp' ▸ htext⟩
      · exact ⟨p, (hmem p).mpr (Or.inl ⟨hp, hp'⟩), htext⟩
    · obtain rfl := List.mem_singleton.mp hq
      exact ⟨⟨left, _⟩, (hmem _).mpr (Or.inr ⟨rfl, rfl⟩), hleft⟩

theorem symbols_readRule (d : Draft) (r : Rule) :
    (d.readRule config config.emptySymbol r).symbols = d.symbols.internSights (r.sights config) :=
  symbols_readAlternatives _ r.alternatives

structure Reads (config : GrammarConfig) (rules : List Rule) (d : Draft) : Prop where
  sound : d.Sound config
  gathers : Gathers config rules d
  kinds : ∀ u, d.symbols.kindAt u =
    ((config.emptyMarker, Kind.empty) :: rules.flatMap (Rule.sights config)).lookup u

theorem reads_initial (config : GrammarConfig) : (initial config).Reads config [] := by
  constructor
  · exact sound_initial config
  · exact ⟨fun p hp => absurd hp List.not_mem_nil, fun r hr => absurd hr List.not_mem_nil⟩
  · intro u
    have hnone : SymbolTable.kindAt {} u = none := rfl
    rw [initial, SymbolTable.kindAt_intern, hnone, Option.none_or, List.flatMap_nil]
    by_cases hu : u = config.emptyMarker
    · simp [hu]
    · simp [List.lookup_cons, hu, beq_false_of_ne hu]

theorem Reads.readRule (h : d.Reads config rules) (r : Rule) :
    (d.readRule config config.emptySymbol r).Reads config (rules ++ [r]) := by
  constructor
  · exact h.sound.readRule r
  · exact h.gathers.readRule h.sound r
  · intro u
    rw [symbols_readRule, SymbolTable.kindAt_internSights, h.kinds, ← List.lookup_append,
      List.flatMap_append, List.flatMap_singleton, List.cons_append]

theorem Reads.readLines {ls : List Text.Line} {e : Draft} (h : d.Reads config rules)
    (hread : d.readLines config config.emptySymbol ls = (e, none)) :
    e.Reads config (rules ++ ls.filterMap fun l => Rule.ofLine? l.text) :=
  readLines_preserves (Reads config) (fun _ _ r hd => hd.readRule r) rules h hread

theorem readLines_eq_none_iff {ls : List Text.Line} :
    (d.readLines config config.emptySymbol ls).2 = none ↔
      ∀ l ∈ ls, (Rule.ofLine? l.text).isSome := by
  induction ls generalizing d with
  | nil => simp [Draft.readLines]
  | cons l rest ih =>
    rw [Draft.readLines]
    cases hr : Rule.ofLine? l.text with
    | none => simp [hr]
    | some r => simp [hr, ih]

end Draft

theorem Text.map_text_lines (cs : List Char) :
    (lines cs).map Line.text = (cs.splitOn '\n').map (trimEnd fun c => c = '\r') := by
  conv_rhs => rw [← List.zipIdx_map_fst 1 (cs.splitOn '\n'), List.map_map]
  rw [lines, List.map_map]
  rfl

/-- The rule that a line of a text is, once carriage returns are dropped from its end. -/
def Rule.ofRaw? (line : List Char) : Option Rule :=
  Rule.ofLine? (Text.trimEnd (fun c => c = '\r') line)

/-- The rules of a text, without regard to lines that are none. -/
def Rule.ofText (text : String) : List Rule :=
  (text.toList.splitOn '\n').filterMap Rule.ofRaw?

def Text.Readable (line : List Char) : Prop :=
  (∀ c ∈ trimEnd (fun c => c = '\r') line, IsBlank c) ∨ (Rule.ofRaw? line).isSome

theorem Rule.not_blank_of_ofLine? {cs : List Char} {r : Rule} (h : Rule.ofLine? cs = some r) :
    ¬∀ c ∈ cs, Text.IsBlank c := by
  obtain ⟨body, -, rfl, -⟩ := Rule.ofLine?_eq_some_iff.mp h
  intro hblank
  have harrow : ¬Text.IsBlank '-' := by decide
  exact harrow (hblank '-' (by simp))

theorem Rule.mem_of_mem_chars {line : List Char} {r : Rule} (h : Rule.ofRaw? line = some r) {c : Char}
    (hc : c ∈ r.chars) : c ∈ line := by
  obtain ⟨body, -, htrim, halternatives⟩ := Rule.ofLine?_eq_some_iff.mp h
  obtain ⟨dropped, hdropped, -⟩ := Text.trimEnd_append_dropped (fun c => c = '\r') line
  have hline : ∀ d ∈ r.left :: '-' :: '>' :: body, d ∈ line := by
    intro d hd
    rw [hdropped, htrim]
    exact List.mem_append_left _ hd
  rcases List.mem_cons.mp hc with rfl | hc
  · exact hline _ List.mem_cons_self
  · obtain ⟨cs, hcs, hc⟩ := List.mem_flatten.mp hc
    exact hline c (by simp [Text.mem_of_mem_splitOn (halternatives ▸ hcs) hc])

theorem Rule.filterMap_contentLines (text : String) :
    ((Text.contentLines text.toList).filterMap fun l => Rule.ofLine? l.text) =
      Rule.ofText text := by
  have hskip : ∀ l : Text.Line, (if decide ¬l.Blank then Rule.ofLine? l.text else none) =
      Rule.ofLine? l.text := by
    intro l
    by_cases hl : l.Blank
    · cases hr : Rule.ofLine? l.text with
      | none => simp
      | some r => exact absurd hl (Rule.not_blank_of_ofLine? hr)
    · simp [hl]
  have hlines : (Text.lines text.toList).filterMap (fun l => Rule.ofLine? l.text) =
      ((Text.lines text.toList).map Text.Line.text).filterMap Rule.ofLine? := by
    rw [List.filterMap_map]
    rfl
  rw [Text.contentLines, List.filterMap_filter, funext hskip, hlines, Text.map_text_lines,
    List.filterMap_map]
  rfl

theorem Grammar.reads_of_read {config : GrammarConfig} {text : String} {g : Grammar}
    (h : Grammar.read config text = .ok g) :
    ∃ d : Draft, d.Reads config (Rule.ofText text) ∧ g = d.toGrammar config := by
  rw [Grammar.read, Reader.read] at h
  split at h
  · cases h
  · next d hd =>
    cases h
    have hreads := (Draft.reads_initial config).readLines hd
    rw [List.nil_append, Rule.filterMap_contentLines] at hreads
    exact ⟨d, hreads, rfl⟩

theorem Grammar.exists_read_iff_readLines {config : GrammarConfig} {text : String} :
    (∃ g, Grammar.read config text = .ok g) ↔ ((Draft.initial config).readLines config
      config.emptySymbol (Text.contentLines text.toList)).2 = none := by
  rw [Grammar.read, Reader.read]
  rcases hread : (Draft.initial config).readLines config config.emptySymbol
    (Text.contentLines text.toList) with ⟨d, _ | m⟩ <;> simp

theorem Grammar.exists_read_iff {config : GrammarConfig} {text : String} :
    (∃ g, Grammar.read config text = .ok g) ↔
      ∀ line ∈ text.toList.splitOn '\n', Text.Readable line := by
  have hlines : (∀ l ∈ Text.contentLines text.toList, (Rule.ofLine? l.text).isSome) ↔
      ∀ cs ∈ (Text.lines text.toList).map Text.Line.text,
        (∀ c ∈ cs, Text.IsBlank c) ∨ (Rule.ofLine? cs).isSome := by
    rw [List.forall_mem_map]
    constructor
    · intro h l hl
      by_cases hblank : l.Blank
      · exact Or.inl hblank
      · exact Or.inr (h l (Text.mem_contentLines.mpr ⟨hl, hblank⟩))
    · intro h l hl
      obtain ⟨hl, hblank⟩ := Text.mem_contentLines.mp hl
      exact (h l hl).resolve_left hblank
  rw [Text.map_text_lines, List.forall_mem_map] at hlines
  rw [Grammar.exists_read_iff_readLines, Draft.readLines_eq_none_iff, hlines]
  rfl

section Kinds

variable {config : GrammarConfig} {text text' : String} {g h : Grammar}

theorem Grammar.kindAt_of_read {text : String} {g : Grammar}
    (h : Grammar.read config text = .ok g) (u : String) : g.symbols.kindAt u =
      (((config.emptyMarker, Kind.empty) :: (Rule.ofText text).flatMap (Rule.sights config)).lookup
        u).or (if u = config.endMarker then some .terminal else none) := by
  obtain ⟨d, hd, rfl⟩ := Grammar.reads_of_read h
  rw [← hd.kinds]
  exact SymbolTable.kindAt_intern d.symbols config.endMarker .terminal u

theorem mem_map_sights {rules : List Rule} {u : String} :
    u ∈ (rules.flatMap (Rule.sights config)).map Prod.fst ↔
      ∃ c, (∃ r ∈ rules, c ∈ r.chars) ∧ u = String.singleton c := by
  rw [List.map_flatMap, List.mem_flatMap]
  simp only [Rule.texts_sights, List.mem_map]
  constructor
  · rintro ⟨r, hr, c, hc, rfl⟩
    exact ⟨c, ⟨r, hr, hc⟩, rfl⟩
  · rintro ⟨c, ⟨r, hr, hc⟩, rfl⟩
    exact ⟨r, hr, c, hc, rfl⟩

theorem Rule.kind_of_mem_sights {r : Rule} (hleft : 'A' ≤ r.left ∧ r.left ≤ 'Z')
    {s : String × Kind} (hs : s ∈ r.sights config) (hne : s.1 ≠ config.emptyMarker) :
    ∃ c, s.1 = String.singleton c ∧ s.2 = config.kindOf c := by
  rw [Rule.sights] at hs
  rcases List.mem_cons.mp hs with rfl | hs
  · refine ⟨r.left, rfl, ?_⟩
    rw [GrammarConfig.kindOf, if_neg hne, if_pos hleft]
  · obtain ⟨c, -, rfl⟩ := List.mem_map.mp hs
    exact ⟨c, rfl, rfl⟩

/-- Where all left characters are letters, the kinds depend only on what characters the rules of a
text have beside the empty marker. -/
theorem Grammar.kindAt_congr (hg : Grammar.read config text = .ok g)
    (hh : Grammar.read config text' = .ok h)
    (hlefts : ∀ r ∈ Rule.ofText text, 'A' ≤ r.left ∧ r.left ≤ 'Z')
    (hlefts' : ∀ r ∈ Rule.ofText text', 'A' ≤ r.left ∧ r.left ≤ 'Z')
    (hchars : ∀ c, String.singleton c ≠ config.emptyMarker →
      ((∃ r ∈ Rule.ofText text', c ∈ r.chars) ↔ ∃ r ∈ Rule.ofText text, c ∈ r.chars))
    (u : String) : h.symbols.kindAt u = g.symbols.kindAt u := by
  rw [Grammar.kindAt_of_read hg, Grammar.kindAt_of_read hh]
  by_cases hu : u = config.emptyMarker
  · rw [hu, List.lookup_cons_self, List.lookup_cons_self]
  simp only [List.lookup_cons, beq_false_of_ne hu]
  congr 1
  have hkind : ∀ {rules : List Rule}, (∀ r ∈ rules, 'A' ≤ r.left ∧ r.left ≤ 'Z') →
      ∀ kind, (u, kind) ∈ rules.flatMap (Rule.sights config) →
        ∃ c, u = String.singleton c ∧ kind = config.kindOf c := by
    intro rules hletters kind hs
    obtain ⟨r, hr, hs⟩ := List.mem_flatMap.mp hs
    exact Rule.kind_of_mem_sights (hletters r hr) hs hu
  apply Assoc.lookup_congr
  · rw [mem_map_sights, mem_map_sights]
    refine exists_congr fun c => and_congr_left ?_
    rintro rfl
    exact hchars c hu
  · intro p q hp hq
    obtain ⟨c, hc, rfl⟩ := hkind hlefts' p hp
    obtain ⟨d, hd, rfl⟩ := hkind hlefts q hq
    obtain rfl : c = d := singleton_inj.mp (hc.symm.trans hd)
    rfl

theorem Grammar.lookup_eq_none (hg : Grammar.read config text = .ok g) {u : String}
    (hempty : u ≠ config.emptyMarker) (hend : u ≠ config.endMarker)
    (hrules : ∀ r ∈ Rule.ofText text, ∀ c ∈ r.chars, u ≠ String.singleton c) :
    g.symbols.lookup u = none := by
  have hnone : g.symbols.kindAt u = none := by
    rw [Grammar.kindAt_of_read hg, if_neg hend, Option.or_none, Assoc.lookup_eq_none,
      List.map_cons, List.mem_cons, mem_map_sights]
    rintro (hu | ⟨c, ⟨r, hr, hc⟩, hu⟩)
    · exact hempty hu
    exact hrules r hr c hc hu
  exact Option.map_eq_none_iff.mp hnone

end Kinds

end GrammarLab
