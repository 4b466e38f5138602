import Mathlib
import GrammarLab.Proofs.Follow

/-!
# Single changes of the solver's state

Within a pass the solver marks symbols that are not marked yet, enlarges sets and remembers answers,
one after the other. So between two moments of a pass no mark is lost or set again and no set
shrinks. This holds from any state, also where a computation ends in a fault.
-/

namespace GrammarLab.Solver

/-- A single change of the state. The expansion of a symbol begins with its mark. -/
inductive Change : State → State → Prop where
  | mark {s : State} {x : Symbol} : x ∉ s.marked → Change s { s with marked := x :: s.marked }
  | addFirst (s : State) (x : Symbol) (found : SymbolSet) :
      Change s { s with first := s.first.add x found }
  | addFollow (s : State) (x : Symbol) (found : SymbolSet) :
      Change s { s with follow := s.follow.add x found }
  | remember (s : State) (xs : List Symbol) (found : SymbolSet) :
      Change s { s with known := (xs, found) :: s.known }

abbrev Changes : State → State → Prop := Relation.ReflTransGen Change

/-- The marks of the one moment are those of the other before more were set, and no set is
smaller. -/
structure Later (s t : State) : Prop where
  marked : s.marked <:+ t.marked
  first : s.first.Le t.first
  follow : s.follow.Le t.follow

variable {s t u : State}

theorem Later.refl (s : State) : Later s s :=
  ⟨List.suffix_refl _, .refl _, .refl _⟩

theorem Later.trans (h : Later s t) (k : Later t u) : Later s u :=
  ⟨h.marked.trans k.marked, h.first.trans k.first, h.follow.trans k.follow⟩

instance : IsTrans State Later := ⟨fun _ _ _ => Later.trans⟩

theorem Change.later (h : Change s t) : Later s t := by
  cases h with
  | mark => exact ⟨List.suffix_cons _ _, .refl _, .refl _⟩
  | addFirst x found => exact ⟨List.suffix_refl _, Family.le_add _ _ _, .refl _⟩
  | addFollow x found => exact ⟨List.suffix_refl _, .refl _, Family.le_add _ _ _⟩
  | remember => exact ⟨List.suffix_refl _, .refl _, .refl _⟩

theorem Change.nodup_marked (h : Change s t) (hs : s.marked.Nodup) : t.marked.Nodup := by
  cases h with
  | mark hnew => exact List.nodup_cons.mpr ⟨hnew, hs⟩
  | _ => exact hs

theorem Changes.later (h : Changes s t) : Later s t := by
  induction h with
  | refl => exact .refl _
  | tail _ hstep ih => exact ih.trans hstep.later

theorem Changes.nodup_marked (h : Changes s t) (hs : s.marked.Nodup) : t.marked.Nodup := by
  induction h with
  | refl => exact hs
  | tail _ hstep ih => exact hstep.nodup_marked ih

theorem Changes.exists_moments (h : Changes s t) :
    ∃ path, List.IsChain Change (s :: path) ∧ (s :: path).getLast? = some t ∧
      (s :: path).Pairwise Later := by
  obtain ⟨path, hchain, hlast⟩ := List.exists_isChain_cons_of_relationReflTransGen h
  refine ⟨path, hchain, ?_, ?_⟩
  · rw [List.getLast?_eq_some_getLast (List.cons_ne_nil s path), hlast]
  · exact List.isChain_iff_pairwise.mp (hchain.imp fun _ _ => Change.later)

/-- The computation reaches its last state by single changes, be it with an answer or a fault. -/
def StepsFrom {α : Type} (act : Compute α) (s : State) : Prop :=
  match act.run s with
  | .ok _ t => Changes s t
  | .error _ t => Changes s t

def Steps {α : Type} (act : Compute α) : Prop := ∀ s, StepsFrom act s

/-- From any state, with an answer or a fault, the computation ends in one that is later. -/
def Grows {α : Type} (act : Compute α) : Prop :=
  ∀ s, match act.run s with
    | .ok _ t => Later s t
    | .error _ t => Later s t

section Steps

variable {α β : Type} {act : Compute α}

theorem StepsFrom.changes (h : StepsFrom act s) {a : α} (hrun : act.run s = .ok a t) :
    Changes s t := by
  rwa [StepsFrom, hrun] at h

theorem Steps.grows (h : Steps act) : Grows act := by
  intro s
  have hs := h s
  unfold StepsFrom at hs
  cases hrun : act.run s with
  | ok a t =>
    rw [hrun] at hs
    exact hs.later
  | error f t =>
    rw [hrun] at hs
    exact hs.later

theorem steps_pure (a : α) : Steps (pure a) := fun _ => .refl

theorem steps_throw (f : Fault) : Steps (throw f : Compute α) := fun _ => .refl

theorem stepsFrom_modify {f : State → State} (h : Change s (f s)) : StepsFrom (modify f) s :=
  .single h

theorem stepsFrom_bind_get {next : State → Compute β} (h : StepsFrom (next s) s) :
    StepsFrom (get >>= next) s := h

theorem StepsFrom.bind (h : StepsFrom act s) {K : α → Compute β} (k : ∀ a, Steps (K a)) :
    StepsFrom (act >>= K) s := by
  unfold StepsFrom at *
  rw [EStateM.run_bind]
  cases hrun : act.run s with
  | error f t =>
    rw [hrun] at h
    exact h
  | ok a t =>
    rw [hrun] at h
    have hnext := k a t
    unfold StepsFrom at hnext
    dsimp only
    cases hlater : (K a).run t with
    | ok b u =>
      rw [hlater] at hnext
      exact h.trans hnext
    | error f u =>
      rw [hlater] at hnext
      exact h.trans hnext

theorem Steps.bind (h : Steps act) {K : α → Compute β} (k : ∀ a, Steps (K a)) :
    Steps (act >>= K) := fun s => (h s).bind k

theorem steps_forM {loop : α → Compute Unit} (h : ∀ a, Steps (loop a)) (as : List α) :
    Steps (as.forM loop) := by
  induction as with
  | nil => exact steps_pure ()
  | cons a rest ih => exact (h a).bind fun _ => ih

theorem steps_addFirst (x : Symbol) (found : SymbolSet) : Steps (addFirst x found) :=
  fun s => stepsFrom_modify (.addFirst s x found)

theorem steps_addFollow (x : Symbol) (found : SymbolSet) : Steps (addFollow x found) :=
  fun s => stepsFrom_modify (.addFollow s x found)

theorem steps_recordedFirst (x : Symbol) : Steps (recordedFirst x) := by
  intro s
  refine stepsFrom_bind_get ?_
  cases s.first.get? x with
  | some found => exact steps_pure found s
  | none => exact steps_throw ⟨x⟩ s

theorem steps_guarded {visit : (Symbol → Compute Unit) → Symbol → Compute Unit}
    (hvisit : ∀ expand : Symbol → Compute Unit, (∀ y, Steps (expand y)) →
      ∀ x, Steps (visit expand x)) (depth : Nat) (x : Symbol) : Steps (guarded visit depth x) := by
  induction depth generalizing x with
  | zero => exact steps_pure ()
  | succ depth ih =>
    intro s
    refine stepsFrom_bind_get ?_
    split
    · exact steps_pure () s
    · next hnew => exact (stepsFrom_modify (.mark hnew)).bind fun _ => hvisit _ ih x

section Expansions

variable {g : Grammar} {fixpoint : Bool} {expand : Symbol → Compute Unit}

theorem steps_absorbFirst (hexpand : ∀ y, Steps (expand y)) (x : Symbol) (c : Candidate) :
    Steps (absorbFirst g expand x c) := by
  induction c with
  | nil => exact steps_addFirst x _
  | cons item rest ih =>
    refine (hexpand item).bind fun _ => (steps_recordedFirst item).bind fun found => ?_
    split
    · exact (steps_addFirst x _).bind fun _ => ih
    · exact steps_addFirst x found

theorem steps_visitFirst (hexpand : ∀ y, Steps (expand y)) (x : Symbol) :
    Steps (visitFirst g expand x) := by
  refine (steps_addFirst x ∅).bind fun _ => ?_
  split
  · exact steps_addFirst x _
  · split
    · exact steps_pure ()
    · exact steps_forM (fun c => steps_absorbFirst hexpand x c) _

theorem steps_expandFirst (g : Grammar) (depth : Nat) (x : Symbol) :
    Steps (expandFirst g depth x) := by
  rw [expandFirst_eq]
  exact steps_guarded (fun _ hexpand x => steps_visitFirst hexpand x) depth x

theorem steps_getFirst (g : Grammar) (x : Symbol) : Steps (getFirst g x) := by
  intro s
  refine stepsFrom_bind_get ?_
  cases s.first.get? x with
  | some found => exact steps_pure found s
  | none => exact ((steps_expandFirst g _ x).bind fun _ => steps_recordedFirst x) s

theorem steps_collectFirst (g : Grammar) (xs : List Symbol) : Steps (collectFirst g xs) := by
  induction xs with
  | nil => exact steps_pure _
  | cons x rest ih =>
    refine (steps_getFirst g x).bind fun found => ?_
    split
    · exact ih.bind fun _ => steps_pure _
    · exact steps_pure found

theorem steps_firstOfString (g : Grammar) (xs : List Symbol) : Steps (firstOfString g xs) := by
  intro s
  refine stepsFrom_bind_get ?_
  split
  · next found _ => exact steps_pure found s
  · refine (steps_collectFirst g xs s).bind fun found => ?_
    exact Steps.bind (fun t => stepsFrom_modify (.remember t xs found)) fun _ => steps_pure found

theorem steps_inheritFollow (hexpand : ∀ y, Steps (expand y)) (x left : Symbol) :
    Steps (inheritFollow expand x left) :=
  (hexpand left).bind fun _ s => stepsFrom_bind_get (steps_addFollow x _ s)

theorem steps_askAhead (next : Symbol) (rest : List Symbol) :
    Steps (if fixpoint then firstOfString g (next :: rest) else getFirst g next) := by
  cases fixpoint
  · exact steps_getFirst g next
  · exact steps_firstOfString g (next :: rest)

theorem steps_absorbRest (hexpand : ∀ y, Steps (expand y)) (x left : Symbol) (rest : List Symbol) :
    Steps (absorbRest g fixpoint expand x left rest) := by
  cases rest with
  | nil => exact steps_inheritFollow hexpand x left
  | cons next rest =>
    by_cases hterm : next.IsTerminal
    · rw [absorbRest, if_pos hterm]
      exact steps_addFollow x _
    · rw [absorbRest_of_not_terminal hterm]
      refine (steps_askAhead next rest).bind fun found => (steps_addFollow x _).bind fun _ => ?_
      split
      · exact steps_inheritFollow hexpand x left
      · exact steps_pure ()

theorem steps_absorbFollow (hexpand : ∀ y, Steps (expand y)) (x left : Symbol) (c : Candidate) :
    Steps (absorbFollow g fixpoint expand x left c) := by
  induction c with
  | nil => exact steps_pure ()
  | cons item rest ih =>
    rw [absorbFollow_cons]
    refine Steps.bind ?_ fun _ => ih
    split
    · exact steps_absorbRest hexpand x left rest
    · exact steps_pure ()

theorem steps_visitFollow (hexpand : ∀ y, Steps (expand y)) (x : Symbol) :
    Steps (visitFollow g fixpoint expand x) :=
  (steps_addFollow x _).bind fun _ => steps_forM (fun p => steps_forM (fun c =>
    steps_absorbFollow hexpand x p.left c) p.candidates) g.productions

theorem steps_expandFollow (g : Grammar) (fixpoint : Bool) (depth : Nat) (x : Symbol) :
    Steps (expandFollow g fixpoint depth x) := by
  rw [expandFollow_eq]
  exact steps_guarded (fun _ hexpand x => steps_visitFollow hexpand x) depth x

end Expansions

end Steps

end GrammarLab.Solver
