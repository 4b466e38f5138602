import Mathlib
import GrammarLab.Proofs.Entering

/-!
# Cells and conflicts

What the table of a grammar holds after FIRST and FOLLOW are computed, in both modes, and which
conflicts it records, in terms of the candidates that a lookahead selects. A candidate is selected
by the answers that the solver gives to questions about it.
-/

namespace GrammarLab

/-- The left symbols with their candidates, production by production. -/
def Grammar.alternatives (g : Grammar) : List (Symbol × Candidate) :=
  g.productions.flatMap fun p => p.candidates.map fun c => (p.left, c)

theorem Grammar.mem_alternatives {g : Grammar} {x : Symbol} {c : Candidate} :
    (x, c) ∈ g.alternatives ↔ ∃ p ∈ g.productions, p.left = x ∧ c ∈ p.candidates := by
  simp only [alternatives, List.mem_flatMap, List.mem_map, Prod.mk.injEq]
  constructor
  · rintro ⟨p, hp, d, hd, hx, rfl⟩
    exact ⟨p, hp, hx, hd⟩
  · rintro ⟨p, hp, hx, hc⟩
    exact ⟨p, hp, c, hc, hx, rfl⟩

namespace ParsingTable

variable {selects : Symbol → Symbol → Candidate → Prop} [∀ x a c, Decidable (selects x a c)]

theorem mem_selectedIn {alternatives : List (Symbol × Candidate)} {x a : Symbol} {c : Candidate} :
    c ∈ selectedIn selects alternatives x a ↔ (x, c) ∈ alternatives ∧ selects x a c := by
  simp only [selectedIn, List.mem_map, List.mem_filter, decide_eq_true_eq]
  constructor
  · rintro ⟨⟨y, d⟩, ⟨hmem, rfl, hsel⟩, rfl⟩
    exact ⟨hmem, hsel⟩
  · rintro ⟨hmem, hsel⟩
    exact ⟨(x, c), ⟨hmem, rfl, hsel⟩, rfl⟩

theorem selectedIn_eq_nil {alternatives : List (Symbol × Candidate)} {x : Symbol}
    (h : ∀ p ∈ alternatives, p.1 ≠ x) (a : Symbol) : selectedIn selects alternatives x a = [] := by
  rw [List.eq_nil_iff_forall_not_mem]
  intro c hc
  exact h _ (mem_selectedIn.mp hc).1 rfl

theorem selectedIn_flatMap {ps : List Production} (hn : (ps.map Production.left).Nodup)
    {p : Production} (hp : p ∈ ps) (a : Symbol) :
    selectedIn selects (ps.flatMap fun q => q.candidates.map fun c => (q.left, c)) p.left a =
      p.candidates.filter fun c => selects p.left a c := by
  obtain ⟨before, after, rfl⟩ := List.append_of_mem hp
  rw [List.map_append, List.map_cons] at hn
  have hothers : ∀ q ∈ before ++ after, q.left ≠ p.left := by
    intro q hq hleft
    rw [List.nodup_middle, List.nodup_cons, ← List.map_append] at hn
    exact hn.1 (hleft ▸ List.mem_map_of_mem hq)
  have hnone : ∀ qs : List Production, (∀ q ∈ qs, q.left ≠ p.left) →
      selectedIn selects (qs.flatMap fun q => q.candidates.map fun c => (q.left, c)) p.left a =
        [] := by
    intro qs hqs
    apply selectedIn_eq_nil
    intro r hr
    obtain ⟨q, hq, hr⟩ := List.mem_flatMap.mp hr
    obtain ⟨c, -, rfl⟩ := List.mem_map.mp hr
    exact hqs q hq
  have hbefore := hnone before fun q hq => hothers q (List.mem_append_left _ hq)
  have hafter := hnone after fun q hq => hothers q (List.mem_append_right _ hq)
  have happend : ∀ us vs, selectedIn selects (us ++ vs) p.left a =
      selectedIn selects us p.left a ++ selectedIn selects vs p.left a := by
    intro us vs
    simp [selectedIn]
  rw [List.flatMap_append, List.flatMap_cons, happend, happend, hbefore, hafter, List.nil_append,
    List.append_nil]
  simp [selectedIn, List.filter_map, Function.comp_def]

end ParsingTable

namespace Solver

variable {g : Grammar} {fixpoint : Bool} {s : State}

/-- The lookahead `a` selects the candidate `c` of `left`, by the answers that the solver gives. -/
def Selects (g : Grammar) (s : State) (left a : Symbol) (c : Candidate) : Prop :=
  Ends (firstOfString g c) s fun found t =>
    (a ∈ found ∧ ¬a.IsEmpty) ∨
      (g.empty ∈ found ∧ Ends (getFollow left) t fun follow _ => a ∈ follow)

instance (g : Grammar) (s : State) (left a : Symbol) (c : Candidate) :
    Decidable (Selects g s left a c) := decidableEnds _ _ _

theorem mem_selecting_iff_selects (hs : Solved g fixpoint s) {left a : Symbol} {c : Candidate}
    (hc : ∀ x ∈ c, x ∈ g.symbols.symbols) :
    a ∈ selecting g s.first s.follow left c ↔ Selects g s left a c := by
  rw [mem_selecting]
  refine ((hs.first.ends_firstOfString hc).iff ?_).symm
  rintro found _ ⟨rfl, -, known, rfl⟩
  have hfollow : Ends (getFollow left) { s with known } (fun follow _ => a ∈ follow) ↔
      a ∈ s.follow.get left :=
    Ends.iff (Q := fun follow _ => follow = s.follow.get left) ⟨_, _, rfl, rfl⟩
      fun follow _ h => by rw [h]
  rw [hfollow]

theorem tableOf_eq_foldl (g : Grammar) (s : State) :
    tableOf g s = g.alternatives.foldl
      (fun t p => t.enter p.1 p.2 (selecting g s.first s.follow p.1 p.2))
      (.blank g.nonTerminals) := by
  simp [tableOf, ParsingTable.ofEntries, entries, entriesOf, Grammar.alternatives,
    ParsingTable.enter, List.foldl_flatMap, List.foldl_map]

theorem enters_tableOf (hg : g.WellFormed) (hs : Solved g fixpoint s) :
    ParsingTable.Enters g.nonTerminals (Selects g s) g.alternatives (tableOf g s) := by
  rw [tableOf_eq_foldl, ← List.nil_append g.alternatives]
  refine ParsingTable.enters_foldl ParsingTable.enters_blank ?_
  rintro ⟨x, c⟩ hmem
  obtain ⟨p, hp, rfl, hc⟩ := Grammar.mem_alternatives.mp hmem
  refine ⟨List.mem_map_of_mem hp, fun a => ?_⟩
  exact mem_selecting_iff_selects hs (hg.candidate_mem p hp c hc)

theorem exists_built (hg : g.WellFormed) (fixpoint : Bool) (s : State) :
    ∃ t u v, (computeFirst g fixpoint).run s = .ok () t ∧
      (computeFollow g fixpoint).run t = .ok () u ∧
      (buildTable g).run u = .ok (tableOf g u) v ∧ Solved g fixpoint u := by
  obtain ⟨_, t, hfirst, hsolved, -⟩ := ends_computeFirst hg fixpoint s
  obtain ⟨_, u, hfollow, hu, -⟩ := ends_computeFollow hg hsolved
  obtain ⟨_, v, hbuild, rfl, hkept⟩ := ends_buildTable hg hu
  refine ⟨t, u, v, hfirst, hfollow, ?_, hu⟩
  rw [hbuild, tableOf, tableOf, hkept.first, hkept.follow]

/-- The solver knows what every candidate can begin with. -/
def AnswersCandidates (g : Grammar) (s : State) : Prop :=
  ∀ p ∈ g.productions, ∀ c ∈ p.candidates, ∃ found t, (firstOfString g c).run s = .ok found t

theorem Solved.answersCandidates (hg : g.WellFormed) (hs : Solved g fixpoint s) :
    AnswersCandidates g s := by
  intro p hp c hc
  obtain ⟨found, t, hrun, -⟩ := hs.first.ends_firstOfString (hg.candidate_mem p hp c hc)
  exact ⟨found, t, hrun⟩

/-- Every cell holds the last candidate that its lookahead selects. -/
structure KeepsLast (g : Grammar) (s : State) (t : ParsingTable) : Prop where
  answers : AnswersCandidates g s
  rows : ∀ x, (t.row x).isSome ↔ x ∈ g.nonTerminals
  last : ∀ p ∈ g.productions, ∀ a,
    t.lookup p.left a = (p.candidates.filter fun c => Selects g s p.left a c).getLast?
  absent : ∀ p ∈ g.productions, ∀ a,
    t.lookup p.left a = none ↔ ∀ c ∈ p.candidates, ¬Selects g s p.left a c

theorem buildTable_keepsLast {config : GrammarConfig} {text : String} {g : Grammar}
    (hread : Grammar.read config text = .ok g) (fixpoint : Bool) (s : State) :
    ∃ t u table v, (computeFirst g fixpoint).run s = .ok () t ∧
      (computeFollow g fixpoint).run t = .ok () u ∧ (buildTable g).run u = .ok table v ∧
        KeepsLast g u table := by
  have hg := Grammar.wellFormed_of_read hread
  obtain ⟨t, u, v, hfirst, hfollow, hbuild, hsolved⟩ := exists_built hg fixpoint s
  have henters := enters_tableOf hg hsolved
  have hlast : ∀ p ∈ g.productions, ∀ a, (tableOf g u).lookup p.left a =
      (p.candidates.filter fun c => Selects g u p.left a c).getLast? := by
    intro p hp a
    rw [henters.cells p.left (List.mem_map_of_mem hp) a]
    exact congrArg List.getLast? (ParsingTable.selectedIn_flatMap hg.lefts_nodup hp a)
  refine ⟨t, u, _, v, hfirst, hfollow, hbuild, hsolved.answersCandidates hg, henters.rows, hlast,
    ?_⟩
  intro p hp a
  rw [hlast p hp a, List.getLast?_eq_none_iff, List.filter_eq_nil_iff]
  simp

/-- The end marker coincides with the empty marker, a left symbol has two lines, and a candidate is
written twice. -/
theorem buildTable_keepsLast_shared_marker :
    ∃ g t u table v, Grammar.read { endMarker := "$" } "S->aS|$\nA->b\nS->aA|a|aA" = .ok g ∧
      (computeFirst g false).run {} = .ok () t ∧ (computeFollow g false).run t = .ok () u ∧
        (buildTable g).run u = .ok table v ∧ KeepsLast g u table := by
  obtain ⟨g, hg, -⟩ : ∃ g,
      Grammar.read { endMarker := "$" } "S->aS|$\nA->b\nS->aA|a|aA" = .ok g ∧ True := by
    decide +kernel
  obtain ⟨t, u, table, v, ht, hu, hv, hlast⟩ := buildTable_keepsLast hg false {}
  exact ⟨g, t, u, table, v, hg, ht, hu, hv, hlast⟩

/-- The conflicts of every cell are the neighbours that differ among the candidates it selects. -/
structure RecordsChanges (g : Grammar) (s : State) (t : ParsingTable) : Prop where
  answers : AnswersCandidates g s
  cells : ∀ p ∈ g.productions, ∀ a, t.conflictsAt p.left a =
    (Candidate.changes (p.candidates.filter fun c => Selects g s p.left a c)).map
      fun (c, d) => ⟨p.left, a, c, d⟩
  lefts : ∀ k ∈ t.conflicts, k.left ∈ g.nonTerminals
  last : ∀ x a k, (t.conflictsAt x a).getLast? = some k → t.lookup x a = some k.replacement
  /-- The places of the overwriting candidates, counted through all productions. -/
  order : ∃ places : List Nat, places.Pairwise (· ≤ ·) ∧
    List.Forall₂ (ParsingTable.Overwrites (Selects g s) g.alternatives) places t.conflicts
  silent : t.conflicts = [] ↔ ∀ p ∈ g.productions, ∀ a, ∀ c ∈ p.candidates, ∀ d ∈ p.candidates,
    Selects g s p.left a c → Selects g s p.left a d → c = d

theorem mem_conflictsAt {t : ParsingTable} {x a : Symbol} {k : Conflict} :
    k ∈ t.conflictsAt x a ↔ k ∈ t.conflicts ∧ k.left = x ∧ k.lookahead = a := by
  simp [ParsingTable.conflictsAt]

theorem left_mem_of_selectedIn {x a : Symbol} {c : Candidate}
    (hc : c ∈ ParsingTable.selectedIn (Selects g s) g.alternatives x a) : x ∈ g.nonTerminals := by
  obtain ⟨p, hp, rfl, -⟩ := Grammar.mem_alternatives.mp (ParsingTable.mem_selectedIn.mp hc).1
  exact List.mem_map_of_mem hp

section Conflicts

variable {t : ParsingTable}
  (henters : ParsingTable.Enters g.nonTerminals (Selects g s) g.alternatives t)

include henters

theorem conflictsAt_of_enters (hg : g.WellFormed) {p : Production} (hp : p ∈ g.productions)
    (a : Symbol) : t.conflictsAt p.left a =
      (Candidate.changes (p.candidates.filter fun c => Selects g s p.left a c)).map
        fun (c, d) => ⟨p.left, a, c, d⟩ := by
  rw [henters.conflicts]
  exact congrArg (fun cs => (Candidate.changes cs).map _)
    (ParsingTable.selectedIn_flatMap hg.lefts_nodup hp a)

theorem left_mem_of_conflict {k : Conflict} (hk : k ∈ t.conflicts) : k.left ∈ g.nonTerminals := by
  have hcell := mem_conflictsAt.mpr ⟨hk, rfl, rfl⟩
  rw [henters.conflicts] at hcell
  obtain ⟨pair, hpair, -⟩ := List.mem_map.mp hcell
  exact left_mem_of_selectedIn (Candidate.mem_of_mem_changes hpair)

theorem lookup_of_last_conflict {x a : Symbol} {k : Conflict}
    (hk : (t.conflictsAt x a).getLast? = some k) : t.lookup x a = some k.replacement := by
  rw [henters.conflicts, List.getLast?_map, Option.map_eq_some_iff] at hk
  obtain ⟨pair, hpair, rfl⟩ := hk
  have hselected := Candidate.getLast?_changes hpair
  have hx := left_mem_of_selectedIn (List.mem_of_getLast? hselected)
  rw [henters.cells x hx, hselected]

theorem conflicts_eq_nil_iff (hg : g.WellFormed) : t.conflicts = [] ↔
    ∀ p ∈ g.productions, ∀ a, ∀ c ∈ p.candidates, ∀ d ∈ p.candidates,
      Selects g s p.left a c → Selects g s p.left a d → c = d := by
  have hcells : ∀ p ∈ g.productions, ∀ a, t.conflictsAt p.left a = [] ↔
      ∀ c ∈ p.candidates, ∀ d ∈ p.candidates,
        Selects g s p.left a c → Selects g s p.left a d → c = d := by
    intro p hp a
    rw [conflictsAt_of_enters henters hg hp, List.map_eq_nil_iff, Candidate.changes_eq_nil_iff]
    simp only [List.mem_filter, decide_eq_true_eq]
    constructor
    · intro hone c hc d hd hselc hseld
      exact hone c ⟨hc, hselc⟩ d ⟨hd, hseld⟩
    · intro hone c hc d hd
      exact hone c hc.1 d hd.1 hc.2 hd.2
  constructor
  · intro hnil p hp a
    apply (hcells p hp a).mp
    rw [ParsingTable.conflictsAt, hnil, List.filter_nil]
  · intro hone
    rw [List.eq_nil_iff_forall_not_mem]
    intro k hk
    obtain ⟨p, hp, hleft⟩ := List.mem_map.mp (left_mem_of_conflict henters hk)
    have hcell := mem_conflictsAt.mpr ⟨hk, hleft.symm, rfl⟩
    rw [(hcells p hp k.lookahead).mpr (hone p hp k.lookahead)] at hcell
    cases hcell

end Conflicts

theorem buildTable_recordsChanges {config : GrammarConfig} {text : String} {g : Grammar}
    (hread : Grammar.read config text = .ok g) (fixpoint : Bool) (s : State) :
    ∃ t u table v, (computeFirst g fixpoint).run s = .ok () t ∧
      (computeFollow g fixpoint).run t = .ok () u ∧ (buildTable g).run u = .ok table v ∧
        RecordsChanges g u table := by
  have hg := Grammar.wellFormed_of_read hread
  obtain ⟨t, u, v, hfirst, hfollow, hbuild, hsolved⟩ := exists_built hg fixpoint s
  have henters := enters_tableOf hg hsolved
  refine ⟨t, u, _, v, hfirst, hfollow, hbuild, ?_⟩
  constructor
  · exact hsolved.answersCandidates hg
  · intro p hp a
    exact conflictsAt_of_enters henters hg hp a
  · intro k hk
    exact left_mem_of_conflict henters hk
  · intro x a k hk
    exact lookup_of_last_conflict henters hk
  · obtain ⟨places, hsorted, -, hplaces⟩ := henters.places
    exact ⟨places, hsorted, hplaces⟩
  · exact conflicts_eq_nil_iff henters hg

/-- Of four alternatives that begin alike, the first returns after it was displaced, and is then
written again. -/
theorem buildTable_recordsChanges_returning :
    ∃ g t u table v, Grammar.read {} "S->a|aA|$\nA->b\nS->a|a" = .ok g ∧
      (computeFirst g true).run {} = .ok () t ∧ (computeFollow g true).run t = .ok () u ∧
        (buildTable g).run u = .ok table v ∧ RecordsChanges g u table := by
  obtain ⟨g, hg, -⟩ : ∃ g, Grammar.read {} "S->a|aA|$\nA->b\nS->a|a" = .ok g ∧ True := by
    decide +kernel
  obtain ⟨t, u, table, v, ht, hu, hv, hrecords⟩ := buildTable_recordsChanges hg true {}
  exact ⟨g, t, u, table, v, hg, ht, hu, hv, hrecords⟩

end Solver

end GrammarLab
