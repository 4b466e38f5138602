import Mathlib
import GrammarLab.Grammar.Reader

/-!
# What reading guarantees

Every grammar that comes from a text is well formed: its symbols are numbered by one table, the
empty symbol is the only one of its kind, and no two productions share a left symbol. The proof
follows the reader: each step extends the draft and keeps the invariant of its symbol table.
-/

namespace GrammarLab

instance decidableExistsOk {ε α : Type} (x : Except ε α) (P : α → Prop) [DecidablePred P] :
    Decidable (∃ a, x = .ok a ∧ P a) :=
  match x with
  | .ok a => decidable_of_iff (P a) (by simp)
  | .error _ => isFalse (by simp)

structure Grammar.WellFormed (g : Grammar) : Prop where
  table : g.symbols.WellFormed
  empty_mem : g.empty ∈ g.symbols.symbols
  empty_kind : g.empty.IsEmpty
  empty_unique : ∀ x ∈ g.symbols.symbols, x.IsEmpty → x = g.empty
  lefts_nodup : g.nonTerminals.Nodup
  left_mem : ∀ p ∈ g.productions, p.left ∈ g.symbols.symbols
  candidate_mem : ∀ p ∈ g.productions, ∀ c ∈ p.candidates, ∀ x ∈ c, x ∈ g.symbols.symbols
  end_mem : g.endMarker ∈ g.symbols.symbols
  start_mem : ∀ s, g.start = some s → s ∈ g.symbols.symbols

theorem Grammar.WellFormed.ne_empty {g : Grammar} (hg : g.WellFormed) {x : Symbol}
    (h : ¬x.IsEmpty) : x ≠ g.empty := by
  intro he
  exact h (he ▸ hg.empty_kind)

theorem Grammar.WellFormed.productionFor_left {g : Grammar} (hg : g.WellFormed) {p : Production}
    (hp : p ∈ g.productions) : g.productionFor p.left = some p := by
  obtain ⟨q, hq⟩ : ∃ q, g.productionFor p.left = some q := by
    rw [← Option.ne_none_iff_exists']
    intro hnone
    exact Grammar.productionFor_eq_none_iff.mp hnone (List.mem_map_of_mem hp)
  obtain ⟨hqmem, hleft⟩ := Grammar.mem_of_productionFor hq
  rwa [List.inj_on_of_nodup_map hg.lefts_nodup hqmem hp hleft] at hq

namespace SymbolTable

variable {t : SymbolTable} {text : String} {kind : Kind}

theorem mem_intern_of_mem {x : Symbol} (h : x ∈ t.symbols) :
    x ∈ (t.intern text kind).2.symbols := by
  rw [intern]
  split
  · exact h
  · exact List.mem_append_left _ h

theorem intern_mem : (t.intern text kind).1 ∈ (t.intern text kind).2.symbols := by
  rw [intern]
  split
  · next s hs => exact (text_of_lookup hs).1
  · exact List.mem_append_right _ (List.mem_singleton_self _)

theorem text_intern : (t.intern text kind).1.text = text := by
  rw [intern]
  split
  · next s hs => exact (text_of_lookup hs).2
  · rfl

theorem mem_intern {x : Symbol} (h : x ∈ (t.intern text kind).2.symbols) :
    x ∈ t.symbols ∨ (x = t.fresh text kind ∧ t.lookup text = none) := by
  rw [intern] at h
  split at h
  · exact Or.inl h
  · next hn =>
    rcases List.mem_append.mp h with hx | hx
    · exact Or.inl hx
    · exact Or.inr ⟨List.mem_singleton.mp hx, hn⟩

theorem eq_of_text (h : t.WellFormed) {x y : Symbol} (hx : x ∈ t.symbols) (hy : y ∈ t.symbols)
    (e : x.text = y.text) : x = y :=
  List.inj_on_of_nodup_map h.texts hx hy e

/-- The invariant of the table while a text is read. Every text is the empty marker or a single
character, and only the empty symbol is of the empty kind. -/
structure Reads (config : GrammarConfig) (t : SymbolTable) : Prop where
  wellFormed : t.WellFormed
  empty_mem : config.emptySymbol ∈ t.symbols
  empty_unique : ∀ x ∈ t.symbols, x.IsEmpty → x = config.emptySymbol
  texts : ∀ x ∈ t.symbols, x = config.emptySymbol ∨ ∃ c, x.text = String.singleton c

end SymbolTable

theorem SymbolTable.reads_initial (config : GrammarConfig) :
    (Draft.initial config).symbols.Reads config := by
  have hsymbols : (Draft.initial config).symbols.symbols = [config.emptySymbol] := rfl
  refine ⟨wellFormed_empty.intern _ _, ?_, ?_, ?_⟩ <;> simp [hsymbols]

theorem SymbolTable.Reads.unknown_ne_empty {config : GrammarConfig} {t : SymbolTable}
    (h : t.Reads config) {text : String} (hn : t.lookup text = none) :
    text ≠ config.emptyMarker := by
  rintro rfl
  exact lookup_eq_none_iff.mp hn (List.mem_map.mpr ⟨_, h.empty_mem, rfl⟩)

theorem SymbolTable.Reads.intern {config : GrammarConfig} {t : SymbolTable} (h : t.Reads config)
    (c : Char) {kind : Kind} (hk : kind = .empty → String.singleton c = config.emptyMarker) :
    (t.intern (String.singleton c) kind).2.Reads config := by
  refine ⟨h.wellFormed.intern _ _, mem_intern_of_mem h.empty_mem, ?_, ?_⟩
  · intro x hx he
    rcases mem_intern hx with hx | ⟨rfl, hn⟩
    · exact h.empty_unique x hx he
    · exact absurd (hk he) (h.unknown_ne_empty hn)
  · intro x hx
    rcases mem_intern hx with hx | ⟨rfl, -⟩
    · exact h.texts x hx
    · exact Or.inr ⟨c, rfl⟩

theorem GrammarConfig.kindOf_empty {config : GrammarConfig} {c : Char}
    (h : config.kindOf c = .empty) : String.singleton c = config.emptyMarker := by
  rw [kindOf] at h
  split at h
  · assumption
  · split at h <;> cases h

namespace Draft

/-- What reading symbols does to a draft: the table grows, and the productions stay. -/
structure Extends (config : GrammarConfig) (d e : Draft) : Prop where
  reads : e.symbols.Reads config
  grows : ∀ x ∈ d.symbols.symbols, x ∈ e.symbols.symbols
  productions : e.productions = d.productions

theorem Extends.refl {config : GrammarConfig} {d : Draft} (h : d.symbols.Reads config) :
    Extends config d d := ⟨h, fun _ hx => hx, rfl⟩

theorem Extends.trans {config : GrammarConfig} {d e f : Draft} (h : Extends config d e)
    (k : Extends config e f) : Extends config d f :=
  ⟨k.reads, fun x hx => k.grows x (h.grows x hx), k.productions.trans h.productions⟩

theorem readSymbol_extends {config : GrammarConfig} {d : Draft} (h : d.symbols.Reads config)
    (c : Char) : Extends config d (d.readSymbol config c).2 :=
  ⟨h.intern c GrammarConfig.kindOf_empty, fun _ hx => SymbolTable.mem_intern_of_mem hx, rfl⟩

theorem readSymbols_extends {config : GrammarConfig} {d : Draft} (h : d.symbols.Reads config)
    (cs : List Char) :
    Extends config d (d.readSymbols config cs).2 ∧
      ∀ x ∈ (d.readSymbols config cs).1, x ∈ (d.readSymbols config cs).2.symbols.symbols := by
  induction cs generalizing d with
  | nil => exact ⟨.refl h, fun x hx => absurd hx List.not_mem_nil⟩
  | cons c rest ih =>
    have hfirst := readSymbol_extends h c
    obtain ⟨hrest, hmem⟩ := ih hfirst.reads
    refine ⟨hfirst.trans hrest, fun x hx => ?_⟩
    rcases List.mem_cons.mp hx with rfl | hx
    · exact hrest.grows _ SymbolTable.intern_mem
    · exact hmem x hx

theorem readAlternative_extends {config : GrammarConfig} {d : Draft}
    (h : d.symbols.Reads config) (cs : List Char) :
    Extends config d (d.readAlternative config config.emptySymbol cs).2 ∧
      ∀ x ∈ (d.readAlternative config config.emptySymbol cs).1,
        x ∈ (d.readAlternative config config.emptySymbol cs).2.symbols.symbols := by
  cases cs with
  | nil => exact ⟨.refl h, fun x hx => List.mem_singleton.mp hx ▸ h.empty_mem⟩
  | cons c rest => exact readSymbols_extends h (c :: rest)

theorem readAlternatives_extends {config : GrammarConfig} {d : Draft}
    (h : d.symbols.Reads config) (css : List (List Char)) :
    Extends config d (d.readAlternatives config config.emptySymbol css).2 ∧
      ∀ a ∈ (d.readAlternatives config config.emptySymbol css).1, ∀ x ∈ a,
        x ∈ (d.readAlternatives config config.emptySymbol css).2.symbols.symbols := by
  induction css generalizing d with
  | nil => exact ⟨.refl h, fun a ha => absurd ha List.not_mem_nil⟩
  | cons cs rest ih =>
    obtain ⟨hfirst, hmem⟩ := readAlternative_extends h cs
    obtain ⟨hrest, hmems⟩ := ih hfirst.reads
    refine ⟨hfirst.trans hrest, fun a ha => ?_⟩
    rcases List.mem_cons.mp ha with rfl | ha
    · exact fun x hx => hrest.grows x (hmem x hx)
    · exact hmems a ha

end Draft

namespace Production

variable {left : Symbol} {cs : List Candidate} {ps : List Production}

theorem lefts_gather : (gather left cs ps).map Production.left =
    if left ∈ ps.map Production.left then ps.map Production.left
    else ps.map Production.left ++ [left] := by
  induction ps with
  | nil => simp [gather]
  | cons p rest ih =>
    by_cases hp : p.left = left
    · simp [gather, hp]
    · have hne : left ≠ p.left := fun e => hp e.symm
      simp only [gather, hp, if_false, List.map_cons, ih, List.mem_cons, hne, false_or]
      split <;> simp

theorem mem_gather {p : Production} (h : p ∈ gather left cs ps) {c : Candidate}
    (hc : c ∈ p.candidates) :
    (p.left = left ∧ c ∈ cs) ∨ ∃ q ∈ ps, q.left = p.left ∧ c ∈ q.candidates := by
  induction ps with
  | nil =>
    obtain rfl := List.mem_singleton.mp h
    exact Or.inl ⟨rfl, hc⟩
  | cons q rest ih =>
    by_cases hq : q.left = left
    · simp only [gather, hq, if_true] at h
      rcases List.mem_cons.mp h with rfl | h
      · rcases List.mem_append.mp hc with hc | hc
        · exact Or.inr ⟨q, List.mem_cons_self, hq, hc⟩
        · exact Or.inl ⟨rfl, hc⟩
      · exact Or.inr ⟨p, List.mem_cons_of_mem _ h, rfl, hc⟩
    · simp only [gather, hq, if_false] at h
      rcases List.mem_cons.mp h with rfl | h
      · exact Or.inr ⟨p, List.mem_cons_self, rfl, hc⟩
      · rcases ih h with hnew | ⟨r, hr, e, hold⟩
        · exact Or.inl hnew
        · exact Or.inr ⟨r, List.mem_cons_of_mem _ hr, e, hold⟩

end Production

namespace Draft

/-- The invariant of a draft between two lines. -/
structure Sound (config : GrammarConfig) (d : Draft) : Prop where
  reads : d.symbols.Reads config
  lefts_nodup : (d.productions.map Production.left).Nodup
  left_mem : ∀ p ∈ d.productions, p.left ∈ d.symbols.symbols
  candidate_mem : ∀ p ∈ d.productions, ∀ c ∈ p.candidates, ∀ x ∈ c, x ∈ d.symbols.symbols

theorem sound_initial (config : GrammarConfig) : (initial config).Sound config :=
  ⟨SymbolTable.reads_initial config, List.nodup_nil, fun _ h => absurd h List.not_mem_nil,
    fun _ h => absurd h List.not_mem_nil⟩

theorem Sound.gather {config : GrammarConfig} {d e : Draft} (h : d.Sound config)
    (hext : Extends config d e) {left : Symbol} {cs : List Candidate}
    (hleft : left ∈ e.symbols.symbols) (hcs : ∀ c ∈ cs, ∀ x ∈ c, x ∈ e.symbols.symbols) :
    Sound config { e with productions := Production.gather left cs e.productions } := by
  rw [hext.productions]
  have hlefts : (Production.gather left cs d.productions).map Production.left =
      if left ∈ d.productions.map Production.left then d.productions.map Production.left
      else d.productions.map Production.left ++ [left] := Production.lefts_gather
  have hknown : ∀ x ∈ d.productions.map Production.left, x ∈ e.symbols.symbols := by
    intro x hx
    obtain ⟨q, hq, rfl⟩ := List.mem_map.mp hx
    exact hext.grows _ (h.left_mem q hq)
  refine ⟨hext.reads, ?_, ?_, ?_⟩
  · show ((Production.gather left cs d.productions).map Production.left).Nodup
    rw [hlefts]
    split
    · exact h.lefts_nodup
    · next hnew =>
      exact h.lefts_nodup.append (List.nodup_singleton left) (List.disjoint_singleton.mpr hnew)
  · intro p hp
    have hx := List.mem_map_of_mem (f := Production.left) hp
    rw [hlefts] at hx
    split at hx
    · exact hknown _ hx
    · rcases List.mem_append.mp hx with hx | hx
      · exact hknown _ hx
      · rw [List.mem_singleton.mp hx]
        exact hleft
  · intro p hp c hc x hx
    rcases Production.mem_gather hp hc with ⟨-, hc⟩ | ⟨q, hq, -, hc⟩
    · exact hcs c hc x hx
    · exact hext.grows x (h.candidate_mem q hq c hc x hx)

theorem Sound.readRule {config : GrammarConfig} {d : Draft} (h : d.Sound config) (r : Rule) :
    (d.readRule config config.emptySymbol r).Sound config := by
  let start : Draft :=
    { d with symbols := (d.symbols.intern (String.singleton r.left) .variable).2 }
  have hstart : Extends config d start :=
    ⟨h.reads.intern r.left (by simp), fun _ hx => SymbolTable.mem_intern_of_mem hx, rfl⟩
  obtain ⟨hext, hmem⟩ := readAlternatives_extends hstart.reads r.alternatives
  exact h.gather (hstart.trans hext) (hext.grows _ SymbolTable.intern_mem) hmem

/-- Lines that are all rules preserve what a rule preserves. The invariant may speak of the rules
read so far. -/
theorem readLines_preserves {config : GrammarConfig} (P : List Rule → Draft → Prop)
    (hstep : ∀ rules d r, P rules d → P (rules ++ [r]) (d.readRule config config.emptySymbol r))
    (rules : List Rule) {ls : List Text.Line} {d e : Draft} (h : P rules d)
    (hread : d.readLines config config.emptySymbol ls = (e, none)) :
    P (rules ++ ls.filterMap fun l => Rule.ofLine? l.text) e := by
  induction ls generalizing d rules with
  | nil =>
    obtain rfl := (Prod.mk.inj hread).1
    simpa using h
  | cons l rest ih =>
    rw [Draft.readLines] at hread
    split at hread
    · next r hr =>
      have hrest := ih (rules ++ [r]) (hstep rules d r h) hread
      simpa [hr] using hrest
    · cases hread

theorem Sound.readLines {config : GrammarConfig} {ls : List Text.Line} {d e : Draft}
    (h : d.Sound config) (hread : d.readLines config config.emptySymbol ls = (e, none)) :
    e.Sound config := by
  have hstep : ∀ (_ : List Rule) (d : Draft) (r : Rule), d.Sound config →
      (d.readRule config config.emptySymbol r).Sound config := fun _ _ r hd => hd.readRule r
  exact readLines_preserves (fun _ d => d.Sound config) hstep [] h hread

end Draft

theorem Grammar.exists_draft_of_read {config : GrammarConfig} {text : String} {g : Grammar}
    (h : Grammar.read config text = .ok g) :
    ∃ d : Draft, d.Sound config ∧ g = d.toGrammar config := by
  rw [Grammar.read, Reader.read] at h
  split at h
  · cases h
  · next d hd =>
    cases h
    exact ⟨d, (Draft.sound_initial config).readLines hd, rfl⟩

theorem Grammar.wellFormed_of_read {config : GrammarConfig} {text : String} {g : Grammar}
    (h : Grammar.read config text = .ok g) : g.WellFormed := by
  obtain ⟨d, hd, rfl⟩ := exists_draft_of_read h
  have hgrows : ∀ x ∈ d.symbols.symbols, x ∈ (d.toGrammar config).symbols.symbols :=
    fun x hx => SymbolTable.mem_intern_of_mem hx
  refine
    { table := hd.reads.wellFormed.intern _ _
      empty_mem := hgrows _ hd.reads.empty_mem
      empty_kind := rfl
      empty_unique := ?_
      lefts_nodup := hd.lefts_nodup
      left_mem := fun p hp => hgrows _ (hd.left_mem p hp)
      candidate_mem := fun p hp c hc x hx => hgrows _ (hd.candidate_mem p hp c hc x hx)
      end_mem := SymbolTable.intern_mem
      start_mem := fun s hs => (SymbolTable.text_of_lookup hs).1 }
  intro x hx he
  rcases SymbolTable.mem_intern hx with hx | ⟨rfl, -⟩
  · exact hd.reads.empty_unique x hx he
  · cases he

theorem Grammar.text_of_read {config : GrammarConfig} {text : String} {g : Grammar}
    (h : Grammar.read config text = .ok g) {x : Symbol} (hx : x ∈ g.symbols.symbols) :
    x = g.empty ∨ x.text = config.endMarker ∨ ∃ c, x.text = String.singleton c := by
  obtain ⟨d, hd, rfl⟩ := exists_draft_of_read h
  rcases SymbolTable.mem_intern hx with hx | ⟨rfl, -⟩
  · rcases hd.reads.texts x hx with rfl | hc
    · exact Or.inl rfl
    · exact Or.inr (Or.inr hc)
  · exact Or.inr (Or.inl rfl)

theorem Grammar.empty_of_read {config : GrammarConfig} {text : String} {g : Grammar}
    (h : Grammar.read config text = .ok g) : g.empty = config.emptySymbol := by
  obtain ⟨d, -, rfl⟩ := exists_draft_of_read h
  rfl

theorem Grammar.start_of_read {config : GrammarConfig} {text : String} {g : Grammar}
    (h : Grammar.read config text = .ok g) : g.start = g.symbols.lookup config.startSymbol := by
  obtain ⟨d, -, rfl⟩ := exists_draft_of_read h
  rfl

theorem Grammar.endMarker_of_read {config : GrammarConfig} {text : String} {g : Grammar}
    (h : Grammar.read config text = .ok g) : g.endMarker.text = config.endMarker := by
  obtain ⟨d, -, rfl⟩ := exists_draft_of_read h
  exact SymbolTable.text_intern

end GrammarLab
