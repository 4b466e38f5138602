import Mathlib
import GrammarLab.Proofs.DepthFirst
import GrammarLab.Proofs.LeftRecursion
import GrammarLab.Proofs.Stability

/-!
# FIRST by one pass

One pass finds nothing that repeated passes do not find. It may miss members where a variable leads
back to itself through the beginnings of its candidates, for then it reads sets that are still being
filled. Without such a cycle every set that is read is complete, in whatever order the variables
are visited. Both modes then answer all questions about symbols and strings alike, symbols that are
new to the grammar included.
-/

namespace GrammarLab

namespace Grammar

variable {g : Grammar}

/-- In a candidate of the variable `x` the variable `y` stands behind symbols that can all be empty
according to the given FIRST sets. Both have productions. -/
def StartsWithVariable (g : Grammar) (first : Family) (x y : Symbol) : Prop :=
  g.Meets (fun z => g.empty ∈ first.get z) x y ∧ y.IsVariable ∧ y ∈ g.nonTerminals

theorem Meets.left_mem {vanishes : Symbol → Prop} {x y : Symbol} (h : g.Meets vanishes x y) :
    x ∈ g.nonTerminals := by
  obtain ⟨-, p, hp, rfl, -⟩ := h
  exact List.mem_map_of_mem hp

theorem startsWithVariable_of_meets {first : Family} {x : Symbol}
    (h : Relation.TransGen (g.Meets fun z => g.empty ∈ first.get z) x x) :
    Relation.TransGen (g.StartsWithVariable first) x x := by
  obtain ⟨y, hxy, -⟩ := Relation.TransGen.head'_iff.mp h
  exact Solver.transGen_restrict (P := fun z => z.IsVariable ∧ z ∈ g.nonTerminals)
    (fun _ _ hmeets => ⟨hmeets.1, hmeets.left_mem⟩) h ⟨hxy.1, hxy.left_mem⟩

end Grammar

namespace Family

variable {f h : Family} {empty : Symbol}

theorem firstOf?_agree
    (hsame : ∀ x a b, f.get? x = some a → h.get? x = some b → ∀ y, y ∈ a ↔ y ∈ b)
    {xs : List Symbol} {a b : SymbolSet} (ha : f.firstOf? empty xs = some a)
    (hb : h.firstOf? empty xs = some b) (y : Symbol) : y ∈ a ↔ y ∈ b := by
  induction xs generalizing a b with
  | nil =>
    obtain rfl : a = b := Option.some.inj (ha.symm.trans hb)
    rfl
  | cons x rest ih =>
    obtain ⟨here, hhere, ha⟩ := Option.bind_eq_some_iff.mp ha
    obtain ⟨there, hthere, hb⟩ := Option.bind_eq_some_iff.mp hb
    have hx := hsame x here there hhere hthere
    by_cases hempty : empty ∈ here
    · rw [if_pos hempty] at ha
      rw [if_pos ((hx empty).mp hempty)] at hb
      obtain ⟨tail, htail, rfl⟩ := Option.map_eq_some_iff.mp ha
      obtain ⟨end', hend, rfl⟩ := Option.map_eq_some_iff.mp hb
      simp only [SymbolSet.mem_union, SymbolSet.mem_erase, hx y, ih htail hend]
    · rw [if_neg hempty] at ha
      rw [if_neg fun hthere => hempty ((hx empty).mpr hthere)] at hb
      obtain rfl := Option.some.inj ha
      obtain rfl := Option.some.inj hb
      exact hx y

end Family

namespace Solver

variable {g : Grammar} {s t u : State}

def BothAnswer (question : Compute SymbolSet) (t u : State) (R : SymbolSet → SymbolSet → Prop) :
    Prop :=
  ∃ a b t' u', question.run t = .ok a t' ∧ question.run u = .ok b u' ∧ R a b

theorem bothAnswer_of_ends {question : Compute SymbolSet} {A B : SymbolSet → State → Prop}
    {R : SymbolSet → SymbolSet → Prop} (ha : Ends question t A) (hb : Ends question u B)
    (hR : ∀ a t' b u', A a t' → B b u' → R a b) : BothAnswer question t u R := by
  obtain ⟨a, t', hrun, hA⟩ := ha
  obtain ⟨b, u', hrun', hB⟩ := hb
  exact ⟨a, b, t', u', hrun, hrun', hR a t' b u' hA hB⟩

section Complete

variable {b : State}
  (hacyclic : ∀ x, ¬Relation.TransGen
    (g.Meets fun z => Least g.FirstRule g.symbols.symbols z g.empty) x x)

include hacyclic

theorem ends_forM_visitFirst (hg : g.WellFormed) {α : Type} {key : α → Symbol} {as : List α}
    (has : ∀ a ∈ as, key a ∈ g.symbols.symbols)
    (hs : FirstInvariant g b s ∧ Orderly g.FirstRule g.symbols.symbols State.first [] s) :
    Ends (as.forM fun a => guarded (visitFirst g) (depthLimit g) (key a)) s fun _ t =>
      FirstInvariant g b t ∧ Orderly g.FirstRule g.symbols.symbols State.first [] t := by
  have hloop : ∀ x, ¬g.Meets (fun z => Least g.FirstRule g.symbols.symbols z g.empty) x x :=
    fun x hx => hacyclic x (.single hx)
  have hcycle : ∀ x, ¬DependsOn g.symbols.symbols
      (g.Meets fun z => Least g.FirstRule g.symbols.symbols z g.empty) x x :=
    fun x hx => hacyclic x (Relation.TransGen.mono (fun _ _ hstep => hstep.2.2) _ _ hx)
  exact ends_forM_orderly (visits_first hg b) (sufficient_of_irreflexive hloop)
    (fun x _ y hxy => hxy.left_mem) hcycle has (length_nonTerminals_lt_depthLimit g) hs

/-- One pass finishes all symbols it marks, the variables in the order of their productions first. -/
theorem ends_firstPass_orderly (hg : g.WellFormed) (hs : FirstInvariant g b s) :
    Ends (firstPass g) s fun _ t =>
      FirstInvariant g b t ∧ Orderly g.FirstRule g.symbols.symbols State.first [] t := by
  rw [firstPass, expandFirst_eq]
  refine ends_bind_modify ?_
  apply (ends_forM_visitFirst hacyclic hg hg.left_mem ⟨hs.mark [], .cleared rfl⟩).bind
  intro _ t ht
  exact ends_forM_visitFirst hacyclic hg (fun x hx => hx) ht

theorem ends_computeFirst_complete (hg : g.WellFormed) (s : State) :
    Ends (computeFirst g false) s fun _ t =>
      ∀ x y, Least g.FirstRule g.symbols.symbols x y → y ∈ t.first.get x := by
  rw [computeFirst_eq]
  refine ends_bind_modify ?_
  have hbegin := FirstInvariant.reset g s
  have hpass := (ends_firstPass hg hbegin).and (ends_firstPass_orderly hacyclic hg hbegin)
  apply ((ends_firstPasses hg false rfl hbegin).and hpass).bind
  intro _ t hpost
  obtain ⟨⟨-, hsolved⟩, ⟨-, -, hmarked⟩, -, horderly⟩ := hpost
  apply (hsolved.ends_askCandidates hg).imp
  intro _ _ hpost x y hy
  obtain ⟨-, known, rfl⟩ := hpost
  exact horderly.finished x (hmarked x hy.mem_keys) List.not_mem_nil y hy

end Complete

/-- FIRST sets that were computed, in a state that answers every question about them. -/
structure Answering (g : Grammar) (fixpoint : Bool) (s : State) : Prop where
  solved : FirstSolved g fixpoint s
  ready : Ready g s

theorem ends_computeFirst_answering (hg : g.WellFormed) (fixpoint : Bool) (s : State) :
    Ends (computeFirst g fixpoint) s fun _ t => Answering g fixpoint t :=
  ((ends_computeFirst hg fixpoint s).and (ends_computeFirst_ready hg fixpoint s)).imp
    fun _ _ h => ⟨h.1.1, h.2⟩

theorem Answering.mem_iff {fixpoint : Bool} (h : Answering g fixpoint s) (hst : Preserves g s t)
    {x : Symbol} {found : SymbolSet} (hfound : t.first.get? x = some found) (y : Symbol) :
    y ∈ found ↔ y ∈ s.first.get x ∨ (x ∉ g.symbols.symbols ∧ ¬x.IsVariable ∧ y = x) := by
  by_cases hx : x ∈ g.symbols.symbols
  · have hkept := hst.entries x _ (h.solved.solves.keyed.get?_eq hx)
    obtain rfl : s.first.get x = found := Option.some.inj (hkept.symm.trans hfound)
    simp [hx]
  · have hnone := h.solved.solves.keyed.get?_eq_none hx
    have hnothing := Family.not_mem_get hnone y
    simp [hst.entered x found hnone hfound y, hnothing, hx]

theorem Answering.getFirst_le {i j : Bool} (ht : Answering g i t) (hu : Answering g j u)
    (hle : t.first.Le u.first) (x : Symbol) :
    BothAnswer (getFirst g x) t u fun a b => ∀ y ∈ a, y ∈ b := by
  refine bothAnswer_of_ends (ht.ready.ends_getFirst x) (hu.ready.ends_getFirst x) ?_
  rintro a t' b u' ⟨htt', ha⟩ ⟨huu', hb⟩ y hy
  rw [ht.mem_iff htt' ha] at hy
  rw [hu.mem_iff huu' hb]
  exact hy.imp_left (hle x y)

theorem Answering.agree {i j : Bool} (ht : Answering g i t) (hu : Answering g j u)
    (heq : ∀ x y, y ∈ t.first.get x ↔ y ∈ u.first.get x) :
    (∀ x, BothAnswer (getFirst g x) t u fun a b => ∀ y, y ∈ a ↔ y ∈ b) ∧
      ∀ xs, BothAnswer (firstOfString g xs) t u fun a b => ∀ y, y ∈ a ↔ y ∈ b := by
  have hsame : ∀ {t' u'}, Preserves g t t' → Preserves g u u' → ∀ x a b,
      t'.first.get? x = some a → u'.first.get? x = some b → ∀ y, y ∈ a ↔ y ∈ b := by
    intro t' u' htt' huu' x a b ha hb y
    rw [ht.mem_iff htt' ha, hu.mem_iff huu' hb, heq]
  refine ⟨fun x => ?_, fun xs => ?_⟩
  · refine bothAnswer_of_ends (ht.ready.ends_getFirst x) (hu.ready.ends_getFirst x) ?_
    rintro a t' b u' ⟨htt', ha⟩ ⟨huu', hb⟩
    exact hsame htt' huu' x a b ha hb
  · refine bothAnswer_of_ends (ht.ready.ends_firstOfString xs) (hu.ready.ends_firstOfString xs) ?_
    rintro a t' b u' ⟨htt', ha⟩ ⟨huu', hb⟩
    exact Family.firstOf?_agree (hsame htt' huu') ha hb

/-- One pass finds at most what repeated passes find, and all of it where no variable leads back to
itself through variables that its candidates can start with. -/
theorem computeFirst_onePass {config : GrammarConfig} {text : String} {g : Grammar}
    (hread : Grammar.read config text = .ok g) (s s' : State) :
    ∃ t u, (computeFirst g false).run s = .ok () t ∧ (computeFirst g true).run s' = .ok () u ∧
      (∀ x, BothAnswer (getFirst g x) t u fun a b => ∀ y ∈ a, y ∈ b) ∧
      ((∀ x, ¬Relation.TransGen (g.StartsWithVariable u.first) x x) →
        (∀ x, BothAnswer (getFirst g x) t u fun a b => ∀ y, y ∈ a ↔ y ∈ b) ∧
        ∀ xs, BothAnswer (firstOfString g xs) t u fun a b => ∀ y, y ∈ a ↔ y ∈ b) := by
  have hg := Grammar.wellFormed_of_read hread
  obtain ⟨_, t, hrun, ht⟩ := ends_computeFirst_answering hg false s
  obtain ⟨_, u, hrun', hu⟩ := ends_computeFirst_answering hg true s'
  have hleast : ∀ {x y}, y ∈ u.first.get x ↔ Least g.FirstRule g.symbols.symbols x y :=
    hu.solved.solves.mem_get_iff (firstRule_monotone g)
  have hwithin : t.first.Le u.first := fun x y hy => hleast.mpr (ht.solved.solves.least x y hy)
  refine ⟨t, u, hrun, hrun', ht.getFirst_le hu hwithin, fun hacyclic => ?_⟩
  have hvanishes : (fun z => g.empty ∈ u.first.get z) =
      fun z => Least g.FirstRule g.symbols.symbols z g.empty := funext fun z => propext hleast
  have hmeets : ∀ x, ¬Relation.TransGen
      (g.Meets fun z => Least g.FirstRule g.symbols.symbols z g.empty) x x :=
    fun x hx => hacyclic x (Grammar.startsWithVariable_of_meets (hvanishes ▸ hx))
  obtain ⟨_, _, hagain, hcomplete⟩ := ends_computeFirst_complete hmeets hg s
  obtain ⟨-, rfl⟩ := EStateM.Result.ok.inj (hrun.symm.trans hagain)
  exact ht.agree hu fun x y => ⟨hwithin x y, fun hy => hcomplete x y (hleast.mp hy)⟩

/-- The variable `A` can be empty, so `S` and `B` can start with what comes after it as well. The
order of the alternatives plays no part in the rank. -/
theorem computeFirst_onePass_nullable :
    ∃ g t u, Grammar.read {} "S->ABc\nB->AAb|$\nA->aS|$" = .ok g ∧
      (computeFirst g false).run {} = .ok () t ∧ (computeFirst g true).run {} = .ok () u ∧
      (∀ x, ¬Relation.TransGen (g.StartsWithVariable u.first) x x) ∧
      ∀ xs, BothAnswer (firstOfString g xs) t u fun a b => ∀ y, y ∈ a ↔ y ∈ b := by
  let rank : Symbol → Nat := fun x => if x.text = "S" then 2 else if x.text = "B" then 1 else 0
  obtain ⟨g, hg, _, u, hu, hfalls⟩ : ∃ g, Grammar.read {} "S->ABc\nB->AAb|$\nA->aS|$" = .ok g ∧
      Ends (computeFirst g true) {} fun _ u => ∀ p ∈ g.productions, ∀ c ∈ p.candidates,
        ∀ y ∈ Grammar.front (g.symbols.symbols.filter fun z => g.empty ∈ u.first.get z) c,
          y.IsVariable → rank y < rank p.left := by decide +kernel
  obtain ⟨t, v, ht, hv, -, hagree⟩ := computeFirst_onePass hg {} {}
  obtain ⟨-, rfl⟩ := EStateM.Result.ok.inj (hu.symm.trans hv)
  have hacyclic : ∀ x, ¬Relation.TransGen (g.StartsWithVariable u.first) x x := by
    refine not_transGen_of_rank rank ?_
    rintro x y ⟨⟨-, p, hp, rfl, c, hc, before, rest, rfl, hbefore⟩, hy, -⟩
    refine hfalls p hp _ hc y (Grammar.mem_front fun z hz => ?_) hy
    have htable := (Grammar.wellFormed_of_read hg).candidate_mem p hp _ hc z (by simp [hz])
    exact List.mem_filter.mpr ⟨htable, decide_eq_true (hbefore z hz)⟩
  exact ⟨g, t, u, hg, ht, hu, hacyclic, (hagree hacyclic).2⟩

end Solver

end GrammarLab
