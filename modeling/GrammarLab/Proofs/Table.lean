import Mathlib
import GrammarLab.Analysis
import GrammarLab.Proofs.Follow

/-!
# Building the parsing table

The entries of a table are a function of the FIRST and FOLLOW families: production by production,
candidate by candidate, each candidate under the lookaheads that select it. A cell never holds
anything but one of its entries; in a table without conflicts it holds each of them. Every accepted
text has an analysis.
-/

namespace GrammarLab

namespace ParsingTable

variable {t : ParsingTable} {e : Entry} {x a : Symbol} {lefts : List Symbol} {es : List Entry}

theorem left_setCell (e : Entry) (r : TableRow) : (setCell e r).left = r.left := by
  rw [setCell]
  split <;> rfl

theorem row_write : (t.write e).row x = (t.row x).map (setCell e) := by
  show (t.rows.map (setCell e)).find? _ = _
  rw [List.find?_map]
  simp only [Function.comp_def, left_setCell]
  rfl

theorem row_isSome_write : ((t.write e).row x).isSome = (t.row x).isSome := by
  rw [row_write, Option.isSome_map]

theorem lookup_write : (t.write e).lookup x a =
    if x = e.left ∧ a = e.lookahead ∧ (t.row x).isSome then some e.candidate
    else t.lookup x a := by
  unfold lookup
  rw [row_write]
  cases hrow : t.row x with
  | none => simp
  | some r =>
    have hleft : r.left = x := by simpa using List.find?_some hrow
    by_cases hx : x = e.left
    · have hset : setCell e r = r.set e.lookahead e.candidate := if_pos (hleft.trans hx)
      by_cases ha : a = e.lookahead <;> simp [hset, TableRow.cell_set, hx, ha]
    · have hset : setCell e r = r := if_neg fun h => hx (hleft.symm.trans h)
      simp [hset, hx]

theorem ofEntries_nil : ofEntries lefts [] = blank lefts := rfl

theorem ofEntries_append_singleton :
    ofEntries lefts (es ++ [e]) = (ofEntries lefts es).write e := by
  simp [ofEntries]

theorem row_isSome_ofEntries : ((ofEntries lefts es).row x).isSome ↔ x ∈ lefts := by
  induction es using List.reverseRecOn with
  | nil => simp [ofEntries, blank, row]
  | append_singleton es e ih => rw [ofEntries_append_singleton, row_isSome_write, ih]

theorem lookup_blank (lefts : List Symbol) (x a : Symbol) : (blank lefts).lookup x a = none := by
  unfold lookup
  cases hrow : (blank lefts).row x with
  | none => rfl
  | some r =>
    obtain ⟨y, -, rfl⟩ := List.mem_map.mp (List.mem_of_find?_eq_some hrow)
    rfl

theorem mem_entries_of_lookup {c : Candidate} (h : (ofEntries lefts es).lookup x a = some c) :
    ⟨x, a, c⟩ ∈ es := by
  induction es using List.reverseRecOn with
  | nil => exact absurd ((lookup_blank lefts x a).symm.trans h) (by simp)
  | append_singleton es e ih =>
    rw [ofEntries_append_singleton, lookup_write] at h
    split at h
    · next heq =>
      obtain ⟨rfl, rfl, -⟩ := heq
      cases h
      exact List.mem_append_right _ (List.mem_singleton_self _)
    · exact List.mem_append_left _ (ih h)

/-- Writing is silent only into an empty cell or over the same candidate. -/
theorem conflicts_write_eq_nil (h : (t.write e).conflicts = []) :
    t.conflicts = [] ∧ ∀ c, t.lookup e.left e.lookahead = some c → c = e.candidate := by
  simp only [write] at h
  cases hold : t.lookup e.left e.lookahead with
  | none => exact ⟨by simpa [hold] using h, fun c hc => by cases hc⟩
  | some old =>
    simp only [hold] at h
    split at h
    · next heq => exact ⟨h, fun c hc => by cases hc; exact heq⟩
    · simp at h

theorem lookup_of_mem_entries (h : (ofEntries lefts es).conflicts = []) (he : e ∈ es)
    (hleft : e.left ∈ lefts) :
    (ofEntries lefts es).lookup e.left e.lookahead = some e.candidate := by
  induction es using List.reverseRecOn with
  | nil => exact absurd he List.not_mem_nil
  | append_singleton es d ih =>
    rw [ofEntries_append_singleton] at h ⊢
    obtain ⟨hbefore, hsame⟩ := conflicts_write_eq_nil h
    rw [lookup_write]
    split
    · next heq =>
      obtain ⟨hx, ha, -⟩ := heq
      rcases List.mem_append.mp he with he | he
      · have hold := ih hbefore he
        rw [hx, ha] at hold
        rw [hsame _ hold]
      · rw [List.mem_singleton.mp he]
    · next hne =>
      rcases List.mem_append.mp he with he | he
      · exact ih hbefore he
      · obtain rfl := List.mem_singleton.mp he
        exact absurd ⟨rfl, rfl, row_isSome_ofEntries.mpr hleft⟩ hne

end ParsingTable

namespace Solver

/-- The lookaheads under which a candidate of `left` is entered, given the families. -/
def selecting (g : Grammar) (first follow : Family) (left : Symbol) (c : Candidate) :
    List Symbol :=
  let found := first.firstOf g.empty c
  let direct := found.inOrder.filter fun a => ¬a.IsEmpty
  if g.empty ∈ found then direct ++ (follow.get left).inOrder else direct

def entriesOf (g : Grammar) (first follow : Family) (left : Symbol) (cs : List Candidate) :
    List Entry :=
  cs.flatMap fun c => (selecting g first follow left c).map fun a => ⟨left, a, c⟩

def entries (g : Grammar) (first follow : Family) (ps : List Production) : List Entry :=
  ps.flatMap fun p => entriesOf g first follow p.left p.candidates

variable {g : Grammar} {first follow : Family}

theorem mem_selecting {left a : Symbol} {c : Candidate} :
    a ∈ selecting g first follow left c ↔
      (a ∈ first.firstOf g.empty c ∧ ¬a.IsEmpty) ∨
        (g.empty ∈ first.firstOf g.empty c ∧ a ∈ follow.get left) := by
  simp only [selecting]
  split <;> simp [*]

theorem mem_entries {e : Entry} {ps : List Production} :
    e ∈ entries g first follow ps ↔ ∃ p ∈ ps, e.left = p.left ∧ e.candidate ∈ p.candidates ∧
      e.lookahead ∈ selecting g first follow p.left e.candidate := by
  simp only [entries, entriesOf, List.mem_flatMap, List.mem_map]
  constructor
  · rintro ⟨p, hp, c, hc, a, ha, rfl⟩
    exact ⟨p, hp, rfl, hc, ha⟩
  · rintro ⟨p, hp, hleft, hc, ha⟩
    refine ⟨p, hp, e.candidate, hc, e.lookahead, ha, ?_⟩
    rw [← hleft]

section Build

variable {fixpoint : Bool} {s : State}

/-- Questions asked while the table is built leave the families alone. -/
structure Kept (g : Grammar) (fixpoint : Bool) (s t : State) : Prop where
  solved : Solved g fixpoint t
  first : t.first = s.first
  follow : t.follow = s.follow

theorem Kept.trans {t u : State} (h : Kept g fixpoint s t) (k : Kept g fixpoint t u) :
    Kept g fixpoint s u := ⟨k.solved, k.first.trans h.first, k.follow.trans h.follow⟩

theorem ends_lookaheads (hs : Solved g fixpoint s) {left : Symbol} {c : Candidate}
    (hc : ∀ x ∈ c, x ∈ g.symbols.symbols) :
    Ends (lookaheads g left c) s fun as t =>
      as = selecting g s.first s.follow left c ∧ Kept g fixpoint s t := by
  apply (hs.first.ends_firstOfString hc).bind
  intro _ _ hpost
  obtain ⟨rfl, hfirst, known, rfl⟩ := hpost
  have hkept : Kept g fixpoint s { s with known } := ⟨⟨hfirst, hs.follow⟩, rfl, rfl⟩
  rw [selecting]
  dsimp only
  split
  · exact ends_bind_get (ends_pure ⟨rfl, hkept⟩)
  · exact ends_pure ⟨rfl, hkept⟩

theorem ends_candidateEntries (hs : Solved g fixpoint s) {left : Symbol} {cs : List Candidate}
    (hcs : ∀ c ∈ cs, ∀ x ∈ c, x ∈ g.symbols.symbols) :
    Ends (candidateEntries g left cs) s fun es t =>
      es = entriesOf g s.first s.follow left cs ∧ Kept g fixpoint s t := by
  induction cs generalizing s with
  | nil => exact ends_pure ⟨rfl, hs, rfl, rfl⟩
  | cons c rest ih =>
    apply (ends_lookaheads hs (hcs c List.mem_cons_self)).bind
    intro _ t hpost
    obtain ⟨rfl, ht⟩ := hpost
    apply (ih ht.solved fun d hd => hcs d (List.mem_cons_of_mem _ hd)).bind
    intro _ u hpost
    obtain ⟨rfl, hu⟩ := hpost
    rw [ht.first, ht.follow]
    exact ends_pure ⟨rfl, ht.trans hu⟩

theorem ends_productionEntries (hg : g.WellFormed) (hs : Solved g fixpoint s)
    {ps : List Production} (hps : ∀ p ∈ ps, p ∈ g.productions) :
    Ends (productionEntries g ps) s fun es t =>
      es = entries g s.first s.follow ps ∧ Kept g fixpoint s t := by
  induction ps generalizing s with
  | nil => exact ends_pure ⟨rfl, hs, rfl, rfl⟩
  | cons p rest ih =>
    apply (ends_candidateEntries hs (hg.candidate_mem p (hps p List.mem_cons_self))).bind
    intro _ t hpost
    obtain ⟨rfl, ht⟩ := hpost
    apply (ih ht.solved fun q hq => hps q (List.mem_cons_of_mem _ hq)).bind
    intro _ u hpost
    obtain ⟨rfl, hu⟩ := hpost
    rw [ht.first, ht.follow]
    exact ends_pure ⟨rfl, ht.trans hu⟩

def tableOf (g : Grammar) (s : State) : ParsingTable :=
  .ofEntries g.nonTerminals (entries g s.first s.follow g.productions)

theorem ends_buildTable (hg : g.WellFormed) (hs : Solved g fixpoint s) :
    Ends (buildTable g) s fun t u => t = tableOf g u ∧ Kept g fixpoint s u := by
  apply (ends_productionEntries hg hs fun _ hp => hp).bind
  intro _ t hpost
  obtain ⟨rfl, ht⟩ := hpost
  refine ends_pure ⟨?_, ht⟩
  rw [tableOf, ht.first, ht.follow]

theorem ends_solve (hg : g.WellFormed) (fixpoint : Bool) (s : State) :
    Ends (solve g fixpoint) s fun t u => t = tableOf g u ∧ Solved g fixpoint u := by
  apply (ends_computeFirst hg fixpoint s).bind
  intro _ t hpost
  obtain ⟨ht, -⟩ := hpost
  apply (ends_computeFollow hg ht).bind
  intro _ u hpost
  obtain ⟨hu, -⟩ := hpost
  exact (ends_buildTable hg hu).imp fun _ _ h => ⟨h.1, h.2.solved⟩

end Build

theorem selecting_of_lookup {s : State} {x a : Symbol} {c : Candidate}
    (h : (tableOf g s).lookup x a = some c) :
    ∃ p ∈ g.productions, p.left = x ∧ c ∈ p.candidates ∧
      a ∈ selecting g s.first s.follow x c := by
  obtain ⟨p, hp, hleft, hc, ha⟩ := mem_entries.mp (ParsingTable.mem_entries_of_lookup h)
  change x = p.left at hleft
  subst hleft
  exact ⟨p, hp, rfl, hc, ha⟩

/-- In a table without conflicts a selected candidate is the one in the cell. -/
theorem lookup_of_selecting {s : State} (h : (tableOf g s).conflicts = []) {p : Production}
    (hp : p ∈ g.productions) {c : Candidate} (hc : c ∈ p.candidates) {a : Symbol}
    (ha : a ∈ selecting g s.first s.follow p.left c) :
    (tableOf g s).lookup p.left a = some c := by
  have he : (⟨p.left, a, c⟩ : Entry) ∈ entries g s.first s.follow g.productions :=
    mem_entries.mpr ⟨p, hp, rfl, hc, ha⟩
  exact ParsingTable.lookup_of_mem_entries h he (List.mem_map_of_mem hp)

end Solver

theorem Analysis.exists_load {config : GrammarConfig} {text : String} {g : Grammar}
    (h : Grammar.read config text = .ok g) :
    ∃ a, Analysis.load config text = .ok a ∧ a.config = config ∧ a.grammar = g ∧
      Solver.Solved g config.fixpoint a.sets ∧ a.table = Solver.tableOf g a.sets := by
  obtain ⟨t, s, hrun, htable, hsolved⟩ :=
    Solver.ends_solve (Grammar.wellFormed_of_read h) config.fixpoint {}
  refine ⟨⟨config, g, s, t⟩, ?_, rfl, rfl, hsolved, htable⟩
  rw [load, h]
  show (ofGrammar config g config.fixpoint).mapError LoadError.fault = _
  rw [ofGrammar, hrun]
  rfl

theorem Analysis.load_cases (config : GrammarConfig) (text : String) :
    (∃ m, load config text = .error (.malformed m)) ∨ ∃ a, load config text = .ok a := by
  cases h : Grammar.read config text with
  | error m => exact .inl ⟨m, by rw [load, h]⟩
  | ok g =>
    obtain ⟨a, ha, -⟩ := exists_load h
    exact .inr ⟨a, ha⟩

end GrammarLab
