import Mathlib
import GrammarLab.Proofs.Follow
import GrammarLab.Solver.Workbench

/-!
# Stability of FIRST sets

Once FIRST is computed, the solver may be asked anything and may compute FOLLOW and the table, in
any order and with new symbols numbered in between. It meets no fault, the FIRST sets it has stay as
they are, and strings are answered by the recurrence on them. Three facts carry this through every
operation: left symbols have FIRST sets, so has every marked symbol, and a remembered answer is that
of the recurrence and needs no set that is missing.
-/

namespace GrammarLab

namespace Family

variable {f h : Family} {x : Symbol} {empty : Symbol}

/-- The recurrence of FIRST on the sets that were entered. There is no answer where it needs a set
that was not. -/
def firstOf? (f : Family) (empty : Symbol) : List Symbol → Option SymbolSet
  | [] => some (.singleton empty)
  | x :: rest =>
    (f.get? x).bind fun found =>
      if empty ∈ found then (f.firstOf? empty rest).map fun tail => (found.erase empty).union tail
      else some found

/-- Every set of the first family is in the second, unchanged. -/
def Extends (f h : Family) : Prop := ∀ x found, f.get? x = some found → h.get? x = some found

theorem Extends.refl (f : Family) : f.Extends f := fun _ _ h => h

theorem Extends.trans {k : Family} (a : f.Extends h) (b : h.Extends k) : f.Extends k :=
  fun x found hx => b x found (a x found hx)

theorem Extends.isSome (a : f.Extends h) (hx : (f.get? x).isSome) : (h.get? x).isSome := by
  obtain ⟨found, hfound⟩ := Option.isSome_iff_exists.mp hx
  rw [a x found hfound]
  rfl

theorem Extends.firstOf? (a : f.Extends h) {xs : List Symbol} {found : SymbolSet}
    (hfound : f.firstOf? empty xs = some found) : h.firstOf? empty xs = some found := by
  induction xs generalizing found with
  | nil => exact hfound
  | cons x rest ih =>
    obtain ⟨here, hhere, hfound⟩ := Option.bind_eq_some_iff.mp hfound
    rw [Family.firstOf?, a x here hhere, Option.bind_some]
    by_cases hempty : empty ∈ here
    · rw [if_pos hempty] at hfound ⊢
      obtain ⟨tail, htail, rfl⟩ := Option.map_eq_some_iff.mp hfound
      rw [ih htail, Option.map_some]
    · rwa [if_neg hempty] at hfound ⊢

end Family

namespace Solver

variable {g : Grammar} {fixpoint : Bool} {s t u : State} {x : Symbol}

/-- What every pass brings about holds once passes are repeated. The invariant `I` is what a pass
starts from. -/
theorem ends_untilStable_succ {size : State → Nat} {pass : Compute Unit} {I Q : State → Prop}
    (hpass : ∀ s, I s → Ends pass s fun _ t => I t ∧ Q t) (limit : Nat) (hs : I s) :
    Ends (untilStable size pass (limit + 1)) s fun _ t => Q t := by
  induction limit generalizing s with
  | zero =>
    refine ends_bind_get ((hpass s hs).bind fun _ t ht => ends_bind_get ?_)
    dsimp only
    split <;> exact ends_pure ht.2
  | succ limit ih =>
    refine ends_bind_get ((hpass s hs).bind fun _ t ht => ends_bind_get ?_)
    dsimp only
    split
    · exact ends_pure ht.2
    · exact ih ht.1

/-- The state answers every question about FIRST. -/
structure Ready (g : Grammar) (s : State) : Prop where
  lefts : ∀ x ∈ g.nonTerminals, (s.first.get? x).isSome
  marked : ∀ x ∈ s.marked, (s.first.get? x).isSome
  remembers : ∀ xs found, s.known.lookup xs = some found →
    s.first.firstOf? g.empty xs = some found

/-- The later state answers every question too, and has all sets of the earlier one. Only symbols
without a production are new to it. -/
structure Preserves (g : Grammar) (s t : State) : Prop where
  ready : Ready g t
  entries : s.first.Extends t.first
  entered : ∀ x found, s.first.get? x = none → t.first.get? x = some found →
    ∀ y, y ∈ found ↔ ¬x.IsVariable ∧ y = x

theorem Preserves.of_same (ready : Ready g t) (h : t.first = s.first) : Preserves g s t := by
  refine ⟨ready, h ▸ .refl _, fun x found hnone hsome => ?_⟩
  rw [h, hnone] at hsome
  cases hsome

theorem Preserves.refl (h : Ready g s) : Preserves g s s := .of_same h rfl

theorem Preserves.trans (h : Preserves g s t) (k : Preserves g t u) : Preserves g s u := by
  refine ⟨k.ready, h.entries.trans k.entries, fun x found hnone hsome => ?_⟩
  cases hbetween : t.first.get? x with
  | none => exact k.entered x found hbetween hsome
  | some earlier =>
    obtain rfl : earlier = found := Option.some.inj ((k.entries x earlier hbetween).symm.trans hsome)
    exact h.entered x earlier hnone hbetween

theorem Preserves.forM {α : Type} {act : α → Compute Unit} {as : List α}
    (hact : ∀ a ∈ as, ∀ s, Ready g s → Ends (act a) s fun _ t => Preserves g s t)
    (hs : Ready g s) : Ends (as.forM act) s fun _ t => Preserves g s t := by
  refine ends_forM (I := fun t => Preserves g s t) (fun a ha u hu => ?_) (.refl hs)
  exact (hact a ha u hu.ready).imp fun _ _ h => hu.trans h

section First

theorem Ready.enter (h : Ready g s) (hnew : s.first.get? x = none)
    (hmarked : t.marked = x :: s.marked) (hknown : t.known = s.known)
    (hothers : ∀ y, y ≠ x → t.first.get? y = s.first.get? y) {found : SymbolSet}
    (hx : t.first.get? x = some found) (hfound : ∀ y, y ∈ found ↔ ¬x.IsVariable ∧ y = x) :
    Preserves g s t := by
  have hextends : s.first.Extends t.first := by
    intro y found hy
    have hne : y ≠ x := by
      rintro rfl
      rw [hnew] at hy
      cases hy
    rw [hothers y hne]
    exact hy
  have hentered : (t.first.get? x).isSome := Option.isSome_of_eq_some hx
  refine ⟨⟨fun y hy => hextends.isSome (h.lefts y hy), ?_, ?_⟩, hextends, ?_⟩
  · intro y hy
    rw [hmarked] at hy
    rcases List.mem_cons.mp hy with rfl | hy
    · exact hentered
    · exact hextends.isSome (h.marked y hy)
  · intro xs found hlookup
    rw [hknown] at hlookup
    exact hextends.firstOf? (h.remembers xs found hlookup)
  · intro y other hnone hsome
    by_cases hyx : y = x
    · subst hyx
      obtain rfl : found = other := Option.some.inj (hx.symm.trans hsome)
      exact hfound
    · rw [hothers y hyx, hnone] at hsome
      cases hsome

/-- A symbol without a set is neither marked nor a left symbol, so its expansion goes no deeper. -/
theorem Ready.ends_expandFirst (h : Ready g s) (hnew : s.first.get? x = none) (depth : Nat) :
    Ends (expandFirst g (depth + 1) x) s fun _ t =>
      Preserves g s t ∧ (t.first.get? x).isSome := by
  have hunmarked : x ∉ s.marked := by
    intro hx
    have hsome := h.marked x hx
    rw [hnew] at hsome
    cases hsome
  have hundefined : g.productionFor x = none := by
    rw [Grammar.productionFor_eq_none_iff]
    intro hx
    have hsome := h.lefts x hx
    rw [hnew] at hsome
    cases hsome
  have hnothing := Family.not_mem_get hnew
  rw [expandFirst]
  refine ends_bind_get ?_
  rw [if_neg hunmarked]
  refine ends_bind_modify (ends_bind_modify ?_)
  by_cases hvar : x.IsVariable
  · rw [if_neg (not_not.mpr hvar), hundefined]
    have hx : (s.first.add x ∅).get? x = some ((s.first.get x).union ∅) := by
      rw [Family.get?_add, if_pos rfl]
    refine ends_pure ⟨h.enter hnew rfl rfl (fun y hy => ?_) hx fun y => ?_,
      Option.isSome_of_eq_some hx⟩
    · exact (Family.get?_add s.first x y ∅).trans (if_neg hy)
    · simp [hnothing, hvar]
  · rw [if_pos hvar]
    have hx : ((s.first.add x ∅).add x (.singleton x)).get? x =
        some (((s.first.add x ∅).get x).union (.singleton x)) := by
      rw [Family.get?_add, if_pos rfl]
    refine ends_modify ⟨h.enter hnew rfl rfl (fun y hy => ?_) hx fun y => ?_,
      Option.isSome_of_eq_some hx⟩
    · show ((s.first.add x ∅).add x (.singleton x)).get? y = s.first.get? y
      rw [Family.get?_add, if_neg hy, Family.get?_add, if_neg hy]
    · simp [Family.mem_get_add, hnothing, hvar]

theorem Ready.ends_getFirst (h : Ready g s) (x : Symbol) :
    Ends (getFirst g x) s fun found t => Preserves g s t ∧ t.first.get? x = some found := by
  rw [getFirst]
  refine ends_bind_get ?_
  cases hx : s.first.get? x with
  | some found => exact ends_pure ⟨.refl h, hx⟩
  | none =>
    apply (h.ends_expandFirst hx g.productions.length).bind
    rintro _ t ⟨hst, hentered⟩
    obtain ⟨found, hfound⟩ := Option.isSome_iff_exists.mp hentered
    rw [recordedFirst]
    refine ends_bind_get ?_
    rw [hfound]
    exact ends_pure ⟨hst, hfound⟩

theorem Ready.ends_collectFirst (h : Ready g s) (xs : List Symbol) :
    Ends (collectFirst g xs) s fun found t =>
      Preserves g s t ∧ t.first.firstOf? g.empty xs = some found := by
  induction xs generalizing s with
  | nil => exact ends_pure ⟨.refl h, rfl⟩
  | cons x rest ih =>
    rw [collectFirst]
    apply (h.ends_getFirst x).bind
    rintro found t ⟨hst, hfound⟩
    by_cases hempty : g.empty ∈ found
    · rw [if_pos hempty]
      apply (ih hst.ready).bind
      rintro tail u ⟨htu, htail⟩
      refine ends_pure ⟨hst.trans htu, ?_⟩
      rw [Family.firstOf?, htu.entries x found hfound, Option.bind_some, if_pos hempty, htail,
        Option.map_some]
    · rw [if_neg hempty]
      refine ends_pure ⟨hst, ?_⟩
      rw [Family.firstOf?, hfound, Option.bind_some, if_neg hempty]

theorem Ready.remember (h : Ready g s) {xs : List Symbol} {found : SymbolSet}
    (hfound : s.first.firstOf? g.empty xs = some found) :
    Preserves g s { s with known := (xs, found) :: s.known } := by
  refine .of_same ⟨h.lefts, h.marked, fun ys other hlookup => ?_⟩ rfl
  by_cases heq : ys = xs
  · rw [heq, List.lookup_cons_self] at hlookup
    rw [heq]
    exact hfound.trans hlookup
  · rw [List.lookup_cons, beq_false_of_ne heq] at hlookup
    exact h.remembers ys other hlookup

theorem Ready.ends_firstOfString (h : Ready g s) (xs : List Symbol) :
    Ends (firstOfString g xs) s fun found t =>
      Preserves g s t ∧ t.first.firstOf? g.empty xs = some found := by
  rw [firstOfString]
  refine ends_bind_get ?_
  cases hknown : s.known.lookup xs with
  | some found => exact ends_pure ⟨.refl h, h.remembers xs found hknown⟩
  | none =>
    apply (h.ends_collectFirst xs).bind
    rintro found t ⟨hst, hfound⟩
    exact ends_bind_modify (ends_pure ⟨hst.trans (hst.ready.remember hfound), hfound⟩)

end First

section Follow

theorem Ready.addFollow (h : Ready g s) (x : Symbol) (found : SymbolSet) :
    Ends (addFollow x found) s fun _ t => Preserves g s t :=
  ends_modify (.of_same ⟨h.lefts, h.marked, h.remembers⟩ rfl)

theorem Ready.with_marks (h : Ready g s) {marks : List Symbol}
    (hmarks : ∀ x ∈ marks, (s.first.get? x).isSome) :
    Preserves g s { s with marked := marks } := .of_same ⟨h.lefts, hmarks, h.remembers⟩ rfl

section Occurrences

variable {expand : Symbol → Compute Unit} {left : Symbol}
  (hexpand : ∀ s, Ready g s → Ends (expand left) s fun _ t => Preserves g s t)

include hexpand

theorem Ready.ends_inheritFollow (h : Ready g s) (x : Symbol) :
    Ends (inheritFollow expand x left) s fun _ t => Preserves g s t := by
  apply (hexpand s h).bind
  intro _ t hst
  exact ends_bind_get ((hst.ready.addFollow _ _).imp fun _ _ htu => hst.trans htu)

theorem Ready.ends_absorbRest (h : Ready g s) (x : Symbol) (rest : List Symbol) :
    Ends (absorbRest g fixpoint expand x left rest) s fun _ t => Preserves g s t := by
  cases rest with
  | nil => exact h.ends_inheritFollow hexpand x
  | cons next rest =>
    by_cases hterm : next.IsTerminal
    · rw [absorbRest, if_pos hterm]
      exact h.addFollow x _
    · have hasked : Ends (if fixpoint then firstOfString g (next :: rest) else getFirst g next) s
          fun _ t => Preserves g s t := by
        cases fixpoint with
        | true => exact (h.ends_firstOfString (next :: rest)).imp fun _ _ hpost => hpost.1
        | false => exact (h.ends_getFirst next).imp fun _ _ hpost => hpost.1
      rw [absorbRest_of_not_terminal hterm]
      apply hasked.bind
      intro found t hst
      apply (hst.ready.addFollow x _).bind
      intro _ u htu
      by_cases hempty : g.empty ∈ found
      · rw [if_pos hempty]
        exact (htu.ready.ends_inheritFollow hexpand x).imp fun _ _ h => hst.trans (htu.trans h)
      · rw [if_neg hempty]
        exact ends_pure (hst.trans htu)

theorem Ready.ends_absorbFollow (h : Ready g s) (x : Symbol) (c : Candidate) :
    Ends (absorbFollow g fixpoint expand x left c) s fun _ t => Preserves g s t := by
  induction c generalizing s with
  | nil => exact ends_pure (.refl h)
  | cons item rest ih =>
    rw [absorbFollow_cons]
    have hhere : Ends (if item = x then absorbRest g fixpoint expand x left rest else pure ()) s
        fun _ t => Preserves g s t := by
      by_cases hitem : item = x
      · rw [if_pos hitem]
        exact h.ends_absorbRest hexpand x rest
      · rw [if_neg hitem]
        exact ends_pure (.refl h)
    apply hhere.bind
    intro _ t hst
    exact (ih hst.ready).imp fun _ _ htu => hst.trans htu

end Occurrences

theorem Ready.ends_expandFollow (h : Ready g s) (depth : Nat) (hx : x ∈ g.nonTerminals) :
    Ends (expandFollow g fixpoint depth x) s fun _ t => Preserves g s t := by
  induction depth generalizing x s with
  | zero => exact ends_pure (.refl h)
  | succ depth ih =>
    rw [expandFollow]
    refine ends_bind_get ?_
    by_cases hmarked : x ∈ s.marked
    · rw [if_pos hmarked]
      exact ends_pure (.refl h)
    rw [if_neg hmarked]
    have hmark : Preserves g s { s with marked := x :: s.marked } := by
      apply h.with_marks
      intro y hy
      rcases List.mem_cons.mp hy with rfl | hy
      · exact h.lefts y hx
      · exact h.marked y hy
    refine ends_bind_modify ?_
    apply (hmark.ready.addFollow x _).bind
    intro _ t hst
    refine Ends.imp (Preserves.forM ?_ hst.ready) fun _ _ htu => hmark.trans (hst.trans htu)
    intro p hp s hs
    refine Preserves.forM ?_ hs
    intro c _ s hs
    exact hs.ends_absorbFollow (fun s hs => ih hs (List.mem_map_of_mem hp)) x c

theorem Ready.ends_followPass (h : Ready g s) :
    Ends (followPass g fixpoint) s fun _ t => Preserves g s t := by
  have hclear : Preserves g s { s with marked := [] } :=
    h.with_marks fun x hx => absurd hx List.not_mem_nil
  refine ends_bind_modify (Ends.imp (Preserves.forM ?_ hclear.ready) fun _ _ h => hclear.trans h)
  intro p hp s hs
  exact hs.ends_expandFollow _ (List.mem_map_of_mem hp)

theorem Ready.ends_computeFollow (h : Ready g s) :
    Ends (computeFollow g fixpoint) s fun _ t => Preserves g s t := by
  have hreset : Preserves g s { s with follow := .blank g.nonTerminals } :=
    .of_same ⟨h.lefts, h.marked, h.remembers⟩ rfl
  refine ends_bind_modify ?_
  cases fixpoint with
  | true =>
    refine ends_untilStable_succ (I := fun t => Preserves g s t) (fun t hst => ?_) _ hreset
    exact hst.ready.ends_followPass.imp fun _ _ htu => ⟨hst.trans htu, hst.trans htu⟩
  | false => exact hreset.ready.ends_followPass.imp fun _ _ h => hreset.trans h

end Follow

section Table

theorem Ready.ends_lookaheads (h : Ready g s) (left : Symbol) (c : Candidate) :
    Ends (lookaheads g left c) s fun _ t => Preserves g s t := by
  apply (h.ends_firstOfString c).bind
  rintro found t ⟨hst, -⟩
  dsimp only
  split
  · exact ends_bind_get (ends_pure hst)
  · exact ends_pure hst

theorem Ready.ends_candidateEntries (h : Ready g s) (left : Symbol) (cs : List Candidate) :
    Ends (candidateEntries g left cs) s fun _ t => Preserves g s t := by
  induction cs generalizing s with
  | nil => exact ends_pure (.refl h)
  | cons c rest ih =>
    apply (h.ends_lookaheads left c).bind
    intro _ t hst
    apply (ih hst.ready).bind
    intro _ u htu
    exact ends_pure (hst.trans htu)

theorem Ready.ends_productionEntries (h : Ready g s) (ps : List Production) :
    Ends (productionEntries g ps) s fun _ t => Preserves g s t := by
  induction ps generalizing s with
  | nil => exact ends_pure (.refl h)
  | cons p rest ih =>
    apply (h.ends_candidateEntries p.left p.candidates).bind
    intro _ t hst
    apply (ih hst.ready).bind
    intro _ u htu
    exact ends_pure (hst.trans htu)

theorem Ready.ends_buildTable (h : Ready g s) :
    Ends (buildTable g) s fun _ t => Preserves g s t :=
  (h.ends_productionEntries g.productions).bind fun _ _ hst => ends_pure hst

end Table

section Pass

/-- A state within a FIRST pass. -/
structure Tidy (g : Grammar) (s : State) : Prop where
  keyed : s.first.Over g.symbols.symbols
  marked : ∀ x ∈ s.marked, x ∈ g.symbols.symbols
  known : s.known = []

theorem Tidy.ready (hg : g.WellFormed) (h : Tidy g s) : Ready g s := by
  have hentered : ∀ x ∈ g.symbols.symbols, (s.first.get? x).isSome := by
    intro x hx
    rw [h.keyed.get?_eq hx]
    rfl
  refine ⟨fun x hx => ?_, fun x hx => hentered x (h.marked x hx), fun xs found hlookup => ?_⟩
  · obtain ⟨p, hp, rfl⟩ := List.mem_map.mp hx
    exact hentered _ (hg.left_mem p hp)
  · rw [h.known] at hlookup
    cases hlookup

theorem Tidy.addFirst (h : Tidy g s) (hx : x ∈ g.symbols.symbols) (found : SymbolSet) :
    Ends (addFirst x found) s fun _ t => Tidy g t :=
  ends_modify ⟨h.keyed.add hx found, h.marked, h.known⟩

theorem Tidy.absorbFirst {expand : Symbol → Compute Unit}
    (hexpand : ∀ item ∈ g.symbols.symbols, ∀ s, Tidy g s → Ends (expand item) s fun _ t => Tidy g t)
    (h : Tidy g s) (hx : x ∈ g.symbols.symbols) {c : Candidate}
    (hc : ∀ item ∈ c, item ∈ g.symbols.symbols) :
    Ends (absorbFirst g expand x c) s fun _ t => Tidy g t := by
  induction c generalizing s with
  | nil => exact h.addFirst hx _
  | cons item rest ih =>
    have hitem := hc item List.mem_cons_self
    apply (hexpand item hitem s h).bind
    intro _ t ht
    apply (ends_recordedFirst ht.keyed hitem).bind
    rintro _ _ ⟨rfl, rfl⟩
    by_cases hempty : g.empty ∈ t.first.get item
    · rw [if_pos hempty]
      apply (ht.addFirst hx _).bind
      intro _ u hu
      exact ih hu fun z hz => hc z (List.mem_cons_of_mem _ hz)
    · rw [if_neg hempty]
      exact ht.addFirst hx _

theorem Tidy.expandFirst (hg : g.WellFormed) (h : Tidy g s) (depth : Nat)
    (hx : x ∈ g.symbols.symbols) : Ends (expandFirst g depth x) s fun _ t => Tidy g t := by
  induction depth generalizing x s with
  | zero => exact ends_pure h
  | succ depth ih =>
    rw [Solver.expandFirst]
    refine ends_bind_get ?_
    by_cases hmarked : x ∈ s.marked
    · rw [if_pos hmarked]
      exact ends_pure h
    rw [if_neg hmarked]
    have hmark : Tidy g { s with marked := x :: s.marked } := by
      refine ⟨h.keyed, fun y hy => ?_, h.known⟩
      rcases List.mem_cons.mp hy with rfl | hy
      · exact hx
      · exact h.marked y hy
    refine ends_bind_modify ?_
    apply (hmark.addFirst hx ∅).bind
    intro _ t ht
    by_cases hvar : x.IsVariable
    · rw [if_neg (not_not.mpr hvar)]
      cases hp : g.productionFor x with
      | none => exact ends_pure ht
      | some p =>
        obtain ⟨hmem, -⟩ := Grammar.mem_of_productionFor hp
        refine ends_forM (fun c hc s hs => ?_) ht
        exact hs.absorbFirst (fun item hitem s hs => ih hs hitem) hx (hg.candidate_mem p hmem c hc)
    · rw [if_pos hvar]
      exact ht.addFirst hx _

theorem ends_firstPass_tidy (hg : g.WellFormed) (hkeyed : s.first.Over g.symbols.symbols)
    (hknown : s.known = []) : Ends (firstPass g) s fun _ t => Tidy g t := by
  refine ends_bind_modify ?_
  have hclear : Tidy g { s with marked := [] } :=
    ⟨hkeyed, fun x hx => absurd hx List.not_mem_nil, hknown⟩
  apply (ends_forM (fun p hp s hs => Tidy.expandFirst hg hs _ (hg.left_mem p hp)) hclear).bind
  intro _ t ht
  exact ends_forM (fun x hx s hs => Tidy.expandFirst hg hs _ hx) ht

theorem ends_computeFirst_ready (hg : g.WellFormed) (fixpoint : Bool) (s : State) :
    Ends (computeFirst g fixpoint) s fun _ t => Ready g t := by
  rw [computeFirst_eq]
  refine ends_bind_modify ?_
  have hpasses : Ends
      (if fixpoint then untilStable (fun s => s.first.totalSize) (firstPass g) (passLimit g)
        else firstPass g) { s with first := .blank g.symbols.symbols, known := [] }
      fun _ t => Tidy g t := by
    cases fixpoint with
    | true =>
      refine ends_untilStable_succ
        (I := fun s => s.first.Over g.symbols.symbols ∧ s.known = []) (fun s hs => ?_) _
        ⟨Family.over_blank _, rfl⟩
      exact (ends_firstPass_tidy hg hs.1 hs.2).imp fun _ _ ht => ⟨⟨ht.keyed, ht.known⟩, ht⟩
    | false => exact ends_firstPass_tidy hg (Family.over_blank _) rfl
  apply hpasses.bind
  intro _ t ht
  refine ends_forM (I := Ready g) (fun p _ s hs => ?_) (ht.ready hg)
  refine ends_forM (I := Ready g) (fun c _ s hs => ?_) hs
  exact (hs.ends_firstOfString c).discard fun _ _ hpost => hpost.1.ready

end Pass

namespace Workbench

variable {w : Workbench}

def after (w : Workbench) (commands : List Command) : Workbench :=
  commands.foldl (fun w c => (w.run c).2) w

/-- A result without a fault that leaves the solver ready and its FIRST sets as they were. -/
structure Unharmed (w : Workbench) (r : Answer × Workbench) : Prop where
  answered : ∀ f, r.1 ≠ .fault f
  entries : w.state.first.Extends r.2.state.first
  ready : Ready r.2.grammar r.2.state
  empty : r.2.grammar.empty = w.grammar.empty

theorem unharmed_of_same (h : Ready w.grammar w.state) {a : Answer} (ha : ∀ f, a ≠ .fault f) :
    Unharmed w (a, w) := ⟨ha, .refl _, h, rfl⟩

theorem perform_of_ends {α : Type} {act : Compute α} {Q : α → State → Prop}
    (h : Ends act w.state Q) (answer : α → State → Answer) :
    ∃ a t, w.perform act answer = (answer a t, { w with state := t }) ∧ Q a t := by
  obtain ⟨a, t, hrun, hq⟩ := h
  refine ⟨a, t, ?_, hq⟩
  rw [perform, hrun]

theorem unharmed_perform {α : Type} {act : Compute α}
    (h : Ends act w.state fun _ t => Preserves w.grammar w.state t)
    {answer : α → State → Answer} (ha : ∀ a t f, answer a t ≠ .fault f) :
    Unharmed w (w.perform act answer) := by
  obtain ⟨a, t, hperform, hpost⟩ := perform_of_ends h answer
  rw [hperform]
  exact ⟨ha a t, hpost.entries, hpost.ready, rfl⟩

theorem unharmed_answer (h : Ready w.grammar w.state) (q : Question) (xs : List Symbol) :
    Unharmed w (w.answer q xs) := by
  have hstrings : Ends (firstOfString w.grammar xs) w.state fun _ t =>
      Preserves w.grammar w.state t := (h.ends_firstOfString xs).imp fun _ _ hpost => hpost.1
  cases q with
  | firstOfString => exact unharmed_perform hstrings nofun
  | first =>
    cases xs with
    | nil => exact unharmed_of_same h nofun
    | cons x rest =>
      exact unharmed_perform ((h.ends_getFirst x).imp fun _ _ hpost => hpost.1) nofun
  | follow =>
    cases xs with
    | nil => exact unharmed_of_same h nofun
    | cons x rest =>
      have hfollow : Ends (getFollow x) w.state fun _ t => Preserves w.grammar w.state t :=
        ends_bind_get (ends_pure (.refl h))
      show Unharmed w (w.perform (getFollow x) fun found _ => .set found)
      exact unharmed_perform hfollow nofun
  | production => cases xs <;> exact unharmed_of_same h nofun
  | cell =>
    cases xs with
    | nil => exact unharmed_of_same h nofun
    | cons x rest => cases rest <;> exact unharmed_of_same h nofun
  | row => cases xs <;> exact unharmed_of_same h nofun

theorem unharmed_run (h : Ready w.grammar w.state) {c : Command} (hc : c ≠ .computeFirst) :
    Unharmed w (w.run c) := by
  cases c with
  | intern text kind => exact ⟨nofun, .refl _, ⟨h.lefts, h.marked, h.remembers⟩, rfl⟩
  | computeFirst => exact absurd rfl hc
  | computeFollow => exact unharmed_perform h.ends_computeFollow nofun
  | buildTable =>
    obtain ⟨table, t, hrun, hpost⟩ := h.ends_buildTable
    have hbuild : w.run .buildTable =
        (.table table, { w with state := t, table := some table }) := by
      rw [run, buildTable, hrun]
    rw [hbuild]
    exact ⟨nofun, hpost.entries, hpost.ready, rfl⟩
  | ask q texts =>
    cases hxs : texts.mapM w.grammar.symbols.lookup with
    | none =>
      have hask : w.run (.ask q texts) = (.unknownSymbol, w) := by rw [run, hxs]
      rw [hask]
      exact unharmed_of_same h nofun
    | some xs =>
      have hask : w.run (.ask q texts) = w.answer q xs := by rw [run, hxs]
      rw [hask]
      exact unharmed_answer h q xs

theorem unharmed_after (h : Ready w.grammar w.state) {commands : List Command}
    (hc : .computeFirst ∉ commands) :
    Ready (w.after commands).grammar (w.after commands).state ∧
      w.state.first.Extends (w.after commands).state.first := by
  induction commands generalizing w with
  | nil => exact ⟨h, .refl _⟩
  | cons c rest ih =>
    rw [List.mem_cons, not_or] at hc
    have hrun := unharmed_run h fun heq => hc.1 heq.symm
    obtain ⟨hready, hextends⟩ := ih hrun.ready hc.2
    exact ⟨hready, hrun.entries.trans hextends⟩

/-- The command is served: it meets no fault, it changes no FIRST set, and what it says about a
string is what the recurrence says on the FIRST sets after it. -/
structure Served (w : Workbench) (c : Command) : Prop where
  answered : ∀ f, (w.run c).1 ≠ .fault f
  entries : w.state.first.Extends (w.run c).2.state.first
  strings : ∀ texts xs, c = .ask .firstOfString texts →
    texts.mapM w.grammar.symbols.lookup = some xs → ∃ found, (w.run c).1 = .set found ∧
      (w.run c).2.state.first.firstOf? w.grammar.empty xs = some found
  /-- So are all answers that the solver remembers, those given in the middle of a command too. -/
  remembered : ∀ xs found, (w.run c).2.state.known.lookup xs = some found →
    (w.run c).2.state.first.firstOf? w.grammar.empty xs = some found

theorem served_of_ready (h : Ready w.grammar w.state) {c : Command} (hc : c ≠ .computeFirst) :
    Served w c := by
  have hrun := unharmed_run h hc
  refine ⟨hrun.answered, hrun.entries, ?_, ?_⟩
  · rintro texts xs rfl hxs
    obtain ⟨found, t, hperform, -, hfound⟩ :=
      perform_of_ends (h.ends_firstOfString xs) fun found _ => .set found
    have hask : w.run (.ask .firstOfString texts) = (.set found, { w with state := t }) := by
      rw [run, hxs]
      exact hperform
    rw [hask]
    exact ⟨found, rfl, hfound⟩
  · intro xs found hlookup
    rw [← hrun.empty]
    exact hrun.ready.remembers xs found hlookup

/-- Once FIRST is computed, every command is served, after any commands that do not compute FIRST
anew, and the FIRST sets of that moment last. -/
theorem computeFirst_lasts {config : GrammarConfig} {text : String} {w : Workbench}
    (hread : Grammar.read config text = .ok w.grammar) :
    ∃ sets u, w.run .computeFirst = (.sets sets, u) ∧
      ∀ commands c, .computeFirst ∉ commands → c ≠ .computeFirst →
        Served (u.after commands) c ∧
          u.state.first.Extends ((u.after commands).run c).2.state.first := by
  have hg := Grammar.wellFormed_of_read hread
  obtain ⟨_, t, hrun, hready⟩ := perform_of_ends (ends_computeFirst_ready hg w.fixpoint w.state)
    fun _ s => .sets s.first.entries
  refine ⟨_, _, hrun, fun commands c hcommands hc => ?_⟩
  obtain ⟨hlater, hextends⟩ := unharmed_after (w := { w with state := t }) hready hcommands
  have hserved := served_of_ready hlater hc
  exact ⟨hserved, hextends.trans hserved.entries⟩

/-- New symbols of both kinds, asked for before and after FOLLOW and the table are computed. -/
theorem computeFirst_lasts_new_symbols :
    let commands : List Command := [.intern "X" .variable, .ask .first ["X"], .computeFollow,
      .intern "+" .terminal, .ask .firstOfString ["A", "+", "X"], .buildTable]
    ∃ g sets u, Grammar.read {} "S->AB\nA->a|\nB->Bb" = .ok g ∧
      run { grammar := g, fixpoint := false } .computeFirst = (.sets sets, u) ∧
        Served (u.after commands) (.ask .firstOfString ["A", "+"]) ∧
          u.state.first.Extends
            ((u.after commands).run (.ask .firstOfString ["A", "+"])).2.state.first := by
  intro commands
  obtain ⟨g, hg, -⟩ : ∃ g, Grammar.read {} "S->AB\nA->a|\nB->Bb" = .ok g ∧ True := by
    decide +kernel
  obtain ⟨sets, u, hrun, hserved⟩ :=
    computeFirst_lasts (w := { grammar := g, fixpoint := false }) hg
  obtain ⟨hlast, hextends⟩ := hserved commands (.ask .firstOfString ["A", "+"])
    (by decide) (by decide)
  exact ⟨g, sets, u, hg, hrun, hlast, hextends⟩

end Workbench

end Solver

end GrammarLab
