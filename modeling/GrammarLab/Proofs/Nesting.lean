import Mathlib
import GrammarLab.Proofs.Changes

/-!
# The nesting of expansions

Each expansion that nests another one marks one more left symbol. So the nesting ends by itself, and
how much deeper expansions may nest than there are left symbols makes no difference to what they do.
-/

namespace GrammarLab.Solver

variable {s t u : State}

/-- The computations do the same from all states that have the marks. -/
def Agree {α : Type} (marks : List Symbol) (act other : Compute α) : Prop :=
  ∀ s, marks ⊆ s.marked → act.run s = other.run s

section Agree

variable {α β : Type} {marks : List Symbol} {act other : Compute α}

theorem Agree.refl (marks : List Symbol) (act : Compute α) : Agree marks act act := fun _ _ => rfl

theorem Agree.bind (h : Agree marks act other) (hsteps : Steps act) {K L : α → Compute β}
    (k : ∀ a, Agree marks (K a) (L a)) : Agree marks (act >>= K) (other >>= L) := by
  intro s hs
  rw [EStateM.run_bind, EStateM.run_bind, ← h s hs]
  cases hrun : act.run s with
  | error f t => rfl
  | ok a t =>
    have hlater := ((hsteps s).changes hrun).later
    exact k a t (List.Subset.trans hs hlater.marked.subset)

theorem Agree.forM {loop again : α → Compute Unit} (hsteps : ∀ a, Steps (loop a)) {as : List α}
    (h : ∀ a ∈ as, Agree marks (loop a) (again a)) :
    Agree marks (as.forM loop) (as.forM again) := by
  induction as with
  | nil => exact .refl marks _
  | cons a rest ih =>
    refine (h a List.mem_cons_self).bind (hsteps a) fun _ => ?_
    exact ih fun b hb => h b (List.mem_cons_of_mem _ hb)

theorem Agree.eq (h : Agree [] act other) : act = other :=
  funext fun s => h s (List.nil_subset _)

end Agree

/-- A visit makes single changes and the expansions that it is given, those of keys. A key that is
no reader expands nothing. -/
structure Expanding (keys readers : List Symbol)
    (visit : (Symbol → Compute Unit) → Symbol → Compute Unit) : Prop where
  steps : ∀ expand : Symbol → Compute Unit, (∀ y, Steps (expand y)) → ∀ x, Steps (visit expand x)
  agree : ∀ {expand other : Symbol → Compute Unit} {marks : List Symbol} {x : Symbol},
    (∀ y, Steps (expand y)) → x ∈ keys →
      (x ∈ readers → ∀ y ∈ keys, Agree marks (expand y) (other y)) →
        Agree marks (visit expand x) (visit other x)

section Nesting

variable {keys readers marks : List Symbol} {depth more : Nat} {x : Symbol}
  {visit : (Symbol → Compute Unit) → Symbol → Compute Unit}

theorem run_guarded_of_marked (hx : x ∈ s.marked) (depth : Nat) :
    (guarded visit (depth + 1) x).run s = .ok () s := by
  show (if x ∈ s.marked then pure () else
    mark x >>= fun _ => visit (guarded visit depth) x : Compute Unit).run s = _
  rw [if_pos hx]
  rfl

theorem run_guarded_of_new (hx : x ∉ s.marked) (depth : Nat) :
    (guarded visit (depth + 1) x).run s =
      (visit (guarded visit depth) x).run { s with marked := x :: s.marked } := by
  show (if x ∈ s.marked then pure () else
    mark x >>= fun _ => visit (guarded visit depth) x : Compute Unit).run s = _
  rw [if_neg hx]
  rfl

/-- A nesting that exceeds the number of unmarked readers is enough. Each visit of a reader marks
one more of them before it expands anything. -/
theorem Expanding.agree_guarded (h : Expanding keys readers visit) (hmore : depth ≤ more)
    (hx : x ∈ keys) (hcount : (readers.toFinset \ marks.toFinset).card < depth) :
    Agree marks (guarded visit depth x) (guarded visit more x) := by
  induction depth generalizing more x marks with
  | zero => exact absurd hcount (Nat.not_lt_zero _)
  | succ depth ih =>
    obtain ⟨more, rfl⟩ : ∃ m, more = m + 1 := ⟨more - 1, by omega⟩
    intro s hs
    by_cases hmarked : x ∈ s.marked
    · rw [run_guarded_of_marked hmarked, run_guarded_of_marked hmarked]
    rw [run_guarded_of_new hmarked, run_guarded_of_new hmarked]
    have hnew : x ∉ marks := fun h => hmarked (hs h)
    have hvisit : Agree (x :: marks) (visit (guarded visit depth) x)
        (visit (guarded visit more) x) := by
      refine h.agree (steps_guarded h.steps depth) hx fun hreader y hy => ?_
      have hunmarked : x ∈ readers.toFinset \ marks.toFinset := by simp [hreader, hnew]
      have hfewer := Finset.card_erase_lt_of_mem hunmarked
      refine ih (by omega) hy ?_
      rw [List.toFinset_cons, Finset.sdiff_insert]
      omega
    exact hvisit _ (List.cons_subset_cons x hs)

theorem Expanding.guarded_eq (h : Expanding keys readers visit) (hdepth : readers.length < depth)
    (hmore : depth ≤ more) (hx : x ∈ keys) : guarded visit depth x = guarded visit more x := by
  refine (h.agree_guarded hmore hx ?_).eq
  rw [List.toFinset_nil, Finset.sdiff_empty]
  exact readers.toFinset_card_le.trans_lt hdepth

end Nesting

section Visits

variable {g : Grammar} {fixpoint : Bool} {expand other : Symbol → Compute Unit}
  {marks : List Symbol} {x left : Symbol}

theorem agree_absorbFirst (hsteps : ∀ y, Steps (expand y)) {c : Candidate}
    (hagree : ∀ item ∈ c, Agree marks (expand item) (other item)) :
    Agree marks (absorbFirst g expand x c) (absorbFirst g other x c) := by
  induction c with
  | nil => exact .refl marks _
  | cons item rest ih =>
    refine (hagree item List.mem_cons_self).bind (hsteps item) fun _ => ?_
    refine (Agree.refl marks _).bind (steps_recordedFirst item) fun found => ?_
    split
    · refine (Agree.refl marks _).bind (steps_addFirst x _) fun _ => ?_
      exact ih fun z hz => hagree z (List.mem_cons_of_mem _ hz)
    · exact .refl marks _

theorem expanding_visitFirst (hg : g.WellFormed) :
    Expanding g.symbols.symbols g.nonTerminals (visitFirst g) where
  steps _ hexpand x := steps_visitFirst hexpand x
  agree := by
    intro expand other marks x hsteps _ hagree
    refine (Agree.refl marks _).bind (steps_addFirst x ∅) fun _ => ?_
    split
    · exact .refl marks _
    · split
      · exact .refl marks _
      · next p hp =>
        obtain ⟨hmem, rfl⟩ := Grammar.mem_of_productionFor hp
        refine Agree.forM (fun c => steps_absorbFirst hsteps p.left c) fun c hc => ?_
        exact agree_absorbFirst hsteps fun item hitem =>
          hagree (List.mem_map_of_mem hmem) item (hg.candidate_mem p hmem c hc item hitem)

theorem agree_inheritFollow (hsteps : ∀ y, Steps (expand y))
    (hagree : Agree marks (expand left) (other left)) :
    Agree marks (inheritFollow expand x left) (inheritFollow other x left) :=
  hagree.bind (hsteps left) fun _ => .refl marks _

theorem agree_absorbRest (hsteps : ∀ y, Steps (expand y))
    (hagree : Agree marks (expand left) (other left)) (rest : List Symbol) :
    Agree marks (absorbRest g fixpoint expand x left rest)
      (absorbRest g fixpoint other x left rest) := by
  cases rest with
  | nil => exact agree_inheritFollow hsteps hagree
  | cons next rest =>
    by_cases hterm : next.IsTerminal
    · rw [absorbRest, absorbRest, if_pos hterm, if_pos hterm]
      exact .refl marks _
    · rw [absorbRest_of_not_terminal hterm, absorbRest_of_not_terminal hterm]
      refine (Agree.refl marks _).bind (steps_askAhead next rest) fun found => ?_
      refine (Agree.refl marks _).bind (steps_addFollow x _) fun _ => ?_
      split
      · exact agree_inheritFollow hsteps hagree
      · exact .refl marks _

theorem agree_absorbFollow (hsteps : ∀ y, Steps (expand y))
    (hagree : Agree marks (expand left) (other left)) (c : Candidate) :
    Agree marks (absorbFollow g fixpoint expand x left c)
      (absorbFollow g fixpoint other x left c) := by
  induction c with
  | nil => exact .refl marks _
  | cons item rest ih =>
    rw [absorbFollow_cons, absorbFollow_cons]
    by_cases hitem : item = x
    · rw [if_pos hitem, if_pos hitem]
      refine (agree_absorbRest hsteps hagree rest).bind ?_ fun _ => ih
      exact steps_absorbRest hsteps x left rest
    · rw [if_neg hitem, if_neg hitem]
      exact (Agree.refl marks _).bind (steps_pure ()) fun _ => ih

theorem expanding_visitFollow (g : Grammar) (fixpoint : Bool) :
    Expanding g.nonTerminals g.nonTerminals (visitFollow g fixpoint) where
  steps _ hexpand x := steps_visitFollow hexpand x
  agree := by
    intro expand other marks x hsteps hx hagree
    refine (Agree.refl marks _).bind (steps_addFollow x _) fun _ => ?_
    refine Agree.forM (fun (p : Production) =>
      steps_forM (fun c => steps_absorbFollow hsteps x p.left c) p.candidates) ?_
    intro p hp
    refine Agree.forM (fun c => steps_absorbFollow hsteps x p.left c) fun c _ => ?_
    exact agree_absorbFollow hsteps (hagree hx p.left (List.mem_map_of_mem hp)) c

end Visits

end GrammarLab.Solver
