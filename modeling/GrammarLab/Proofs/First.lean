import Mathlib
import GrammarLab.Proofs.Expansion
import GrammarLab.Proofs.Reading
import GrammarLab.Solver.First

/-!
# The FIRST solver

The rules of FIRST: a symbol that is no variable has itself, a variable what its candidates can
begin with. Guarded expansion follows these rules, so one pass stays within their least solution
and repeated passes reach it. Nothing faults, since every symbol of the table has an entry. Strings
are answered by the recurrence on the recorded sets, whether the answer was remembered or not.
-/

namespace GrammarLab

/-- What the FIRST set of `x` must hold, given the sets of a family. -/
def Grammar.FirstRule (g : Grammar) (f : Family) (x y : Symbol) : Prop :=
  (¬x.IsVariable ∧ y = x) ∨
    (x.IsVariable ∧ ∃ p, g.productionFor x = some p ∧ ∃ c ∈ p.candidates, y ∈ f.firstOf g.empty c)

/-- The symbol stands in a candidate of the variable `x` behind symbols that can all vanish. -/
def Grammar.Meets (g : Grammar) (vanishes : Symbol → Prop) (x item : Symbol) : Prop :=
  x.IsVariable ∧ ∃ p ∈ g.productions, p.left = x ∧ ∃ c ∈ p.candidates, ∃ before rest,
    c = before ++ item :: rest ∧ ∀ z ∈ before, vanishes z

theorem Grammar.Meets.mem_table {g : Grammar} {vanishes : Symbol → Prop} {x item : Symbol}
    (h : g.Meets vanishes x item) (hg : g.WellFormed) : item ∈ g.symbols.symbols := by
  obtain ⟨-, p, hp, -, c, hc, before, rest, rfl, -⟩ := h
  exact hg.candidate_mem p hp _ hc item (by simp)

def Solver.State.Remembers (empty : Symbol) (s : State) : Prop :=
  ∀ xs found, s.known.lookup xs = some found → found = s.first.firstOf empty xs

namespace Solver

variable {g : Grammar} {s : State}

theorem firstRule_monotone (g : Grammar) : Monotone g.FirstRule := by
  intro f h hle x y hy
  rcases hy with ⟨hx, rfl⟩ | ⟨hx, p, hp, c, hc, hy⟩
  · exact Or.inl ⟨hx, rfl⟩
  · exact Or.inr ⟨hx, p, hp, c, hc, Family.firstOf_mono hle hy⟩

theorem mem_table_of_mem_firstOf (hg : g.WellFormed) {f : Family}
    (hf : ∀ x y, y ∈ f.get x → y ∈ g.symbols.symbols) {xs : List Symbol} {y : Symbol}
    (hy : y ∈ f.firstOf g.empty xs) : y ∈ g.symbols.symbols := by
  induction xs with
  | nil => exact Family.mem_firstOf_nil.mp hy ▸ hg.empty_mem
  | cons x rest ih =>
    rcases Family.mem_firstOf_cons.mp hy with ⟨hx, -⟩ | ⟨-, hrest⟩
    · exact hf x y hx
    · exact ih hrest

theorem closes_table (hg : g.WellFormed) :
    Closes g.FirstRule g.symbols.symbols fun _ y => y ∈ g.symbols.symbols := by
  intro f hf x hx y hy
  rcases hy with ⟨-, rfl⟩ | ⟨-, p, -, c, -, hy⟩
  · exact hx
  · exact mem_table_of_mem_firstOf hg hf hy

/-- The invariant of FIRST passes; what they do not touch is as in the state `b`. -/
structure FirstInvariant (g : Grammar) (b s : State) : Prop where
  keyed : s.first.Over g.symbols.symbols
  least : ∀ x y, y ∈ s.first.get x → Least g.FirstRule g.symbols.symbols x y
  known : s.known = b.known
  follow : s.follow = b.follow

theorem FirstInvariant.mark {b : State} (h : FirstInvariant g b s) (marks : List Symbol) :
    FirstInvariant g b { s with marked := marks } := ⟨h.keyed, h.least, h.known, h.follow⟩

abbrev FirstExpands (g : Grammar) (s t : State) : Prop :=
  Expands g.FirstRule State.first s t

abbrev FirstGives (g : Grammar) :=
  Gives g.FirstRule State.first

section Pass

variable {b : State} {I : State → Prop} {F : Family → Prop}

theorem gives_addFirst (hI : Refines State.first (FirstInvariant g b) I) (h : I s) {x : Symbol}
    (hx : x ∈ g.symbols.symbols) {found : SymbolSet}
    (hfound : ∀ y ∈ found, Least g.FirstRule g.symbols.symbols x y) :
    FirstGives g I F x (fun _ y => y ∈ found) (addFirst x found) s := by
  have hs := hI.sound h
  have hle := Family.le_add s.first x found
  have hadded : FirstInvariant g b { s with first := s.first.add x found } := by
    refine ⟨hs.keyed.add hx found, fun z y hy => ?_, hs.known, hs.follow⟩
    rcases Family.mem_get_add.mp hy with hy | ⟨hz, hy⟩
    · exact hs.least z y hy
    · exact hz ▸ hfound y hy
  refine ends_modify ⟨hI.grown h hadded hle rfl, .of_le hle rfl, fun _ _ y hy => ?_⟩
  exact Family.mem_get_add.mpr (Or.inr ⟨rfl, hy⟩)

theorem ends_recordedFirst (h : s.first.Over g.symbols.symbols) {x : Symbol}
    (hx : x ∈ g.symbols.symbols) :
    Ends (recordedFirst x) s fun found t => found = s.first.get x ∧ s = t := by
  refine ends_bind_get ?_
  rw [h.get?_eq hx]
  exact ends_pure ⟨rfl, rfl⟩

section Candidates

variable {expand : Symbol → Compute Unit} {x : Symbol} (hI : Refines State.first (FirstInvariant g b) I)
  (hx : x ∈ g.symbols.symbols)

include hI hx

/-- Reading a candidate adds what it can begin with, if each symbol is given its own members before
it is read. Only symbols behind others that can be empty are read. The induction carries that the
rest of the candidate still counts for `x`. -/
theorem gives_absorbFirst {c : Candidate} (hc : ∀ item ∈ c, item ∈ g.symbols.symbols)
    (hown : ∀ before item rest, c = before ++ item :: rest →
      (∀ z ∈ before, Least g.FirstRule g.symbols.symbols z g.empty) →
        ∀ s, I s → GivesOwn g.FirstRule State.first I F item (expand item) s)
    (hs : I s)
    (hleast : ∀ f : Family, s.first.Le f →
      (∀ z y, y ∈ f.get z → Least g.FirstRule g.symbols.symbols z y) →
      ∀ y ∈ f.firstOf g.empty c, Least g.FirstRule g.symbols.symbols x y) :
    FirstGives g I F x (fun f y => y ∈ f.firstOf g.empty c) (absorbFirst g expand x c) s := by
  have hmono := firstRule_monotone g
  induction c generalizing s with
  | nil =>
    apply (gives_addFirst hI hs hx (hleast _ (Family.Le.refl _) (hI.sound hs).least)).imp
    exact fun _ _ _ hy => hy
  | cons item rest ih =>
    have hitem := hc item List.mem_cons_self
    apply Ends.bind (hown [] item rest rfl (fun _ hz => absurd hz List.not_mem_nil) s hs)
    intro _ t hpost
    obtain ⟨ht, hst, hgiven⟩ := hpost
    apply Gives.after hmono hst
    apply (ends_recordedFirst (hI.sound ht).keyed hitem).bind
    intro _ _ hpost
    obtain ⟨rfl, rfl⟩ := hpost
    have hfirst : ∀ y ∈ t.first.firstOf g.empty (item :: rest),
        Least g.FirstRule g.symbols.symbols x y := hleast _ hst.grows (hI.sound ht).least
    show FirstGives g I F x (fun f y => y ∈ f.firstOf g.empty (item :: rest)) _ t
    split
    · next hempty =>
      have hadded : ∀ y ∈ (t.first.get item).erase g.empty,
          Least g.FirstRule g.symbols.symbols x y :=
        fun y hy => hfirst y (Family.mem_firstOf_cons.mpr (Or.inl (SymbolSet.mem_erase.mp hy)))
      have hvanishes := (hI.sound ht).least item g.empty hempty
      have hrest : ∀ u, I u → Expands g.FirstRule State.first t u →
          FirstGives g I F x (fun f y => y ∈ f.firstOf g.empty rest)
            (absorbFirst g expand x rest) u := by
        intro u hu htu
        apply ih (fun z hz => hc z (List.mem_cons_of_mem _ hz)) _ hu
        · intro f hle hf y hy
          have hitemf : g.empty ∈ f.get item := hle _ _ (htu.grows _ _ hempty)
          exact hleast f (hst.grows.trans (htu.grows.trans hle)) hf y
            (Family.mem_firstOf_cons.mpr (Or.inr ⟨hitemf, hy⟩))
        · intro before next after hsplit hbefore
          exact hown (item :: before) next after (congrArg (item :: ·) hsplit)
            (List.forall_mem_cons.mpr ⟨hvanishes, hbefore⟩)
      apply ((gives_addFirst hI ht hx hadded).bind hmono hrest).imp
      intro f hf y hy
      rcases Family.mem_firstOf_cons.mp hy with ⟨hy, hne⟩ | ⟨-, hy⟩
      · exact Or.inl (SymbolSet.mem_erase.mpr ⟨hgiven f hf y hy, hne⟩)
      · exact Or.inr hy
    · next hempty =>
      have hadded : ∀ y ∈ t.first.get item, Least g.FirstRule g.symbols.symbols x y :=
        fun y hy => hfirst y (Family.mem_firstOf_cons.mpr
          (Or.inl ⟨hy, fun e => hempty (e ▸ hy)⟩))
      apply (gives_addFirst hI ht hx hadded).imp
      intro f hf y hy
      rcases Family.mem_firstOf_cons.mp hy with ⟨hy, -⟩ | ⟨he, -⟩
      · exact hgiven f hf y hy
      · exact absurd (hgiven f hf _ he) hempty

theorem gives_absorbFirsts (hg : g.WellFormed)
    (hown : ∀ item, g.Meets (fun z => Least g.FirstRule g.symbols.symbols z g.empty) x item →
      ∀ s, I s → GivesOwn g.FirstRule State.first I F item (expand item) s)
    (hs : I s) (hv : x.IsVariable) {p : Production} (hp : g.productionFor x = some p) :
    FirstGives g I F x (fun f y => ∃ c ∈ p.candidates, y ∈ f.firstOf g.empty c)
      (p.candidates.forM (absorbFirst g expand x)) s := by
  obtain ⟨hmem, hleft⟩ := Grammar.mem_of_productionFor hp
  apply Gives.forM (firstRule_monotone g) _ hs
  intro c hc s hs
  apply gives_absorbFirst hI hx (hg.candidate_mem p hmem c hc) _ hs
  · intro f _ hf y hy
    exact closes_least _ _ f hf x hx y (Or.inr ⟨hv, p, hp, c, hc, hy⟩)
  · intro before item rest hsplit hbefore
    exact hown item ⟨hv, p, hmem, hleft, c, hc, before, rest, hsplit, hbefore⟩

end Candidates

def visitFirst (g : Grammar) (expand : Symbol → Compute Unit) (x : Symbol) : Compute Unit := do
  addFirst x ∅
  if ¬x.IsVariable then addFirst x (.singleton x) else
  match g.productionFor x with
  | none => pure ()
  | some p => p.candidates.forM (absorbFirst g expand x)

theorem expandFirst_eq (g : Grammar) : expandFirst g = guarded (visitFirst g) := by
  funext depth
  induction depth with
  | zero => rfl
  | succ depth ih =>
    funext x
    rw [guarded, ← ih]
    rfl

theorem gives_visitFirst (hg : g.WellFormed) (hI : Refines State.first (FirstInvariant g b) I)
    {expand : Symbol → Compute Unit} {x : Symbol} (hx : x ∈ g.symbols.symbols)
    (hown : ∀ item, g.Meets (fun z => Least g.FirstRule g.symbols.symbols z g.empty) x item →
      ∀ s, I s → GivesOwn g.FirstRule State.first I F item (expand item) s)
    (hs : I s) :
    FirstGives g I F x (fun f y => g.FirstRule f x y) (visitFirst g expand x) s := by
  have hnone : ∀ y ∈ (∅ : SymbolSet), Least g.FirstRule g.symbols.symbols x y :=
    fun y hy => absurd hy (SymbolSet.not_mem_empty y)
  apply Gives.imp ((gives_addFirst hI hs hx hnone).bind (firstRule_monotone g) ?_)
    fun f _ y hy => Or.inr hy
  intro t ht _
  split
  · next hvar =>
    have hself : ∀ y ∈ SymbolSet.singleton x, Least g.FirstRule g.symbols.symbols x y :=
      fun y hy => closes_least _ _ _ (hI.sound ht).least x hx y
        (Or.inl ⟨hvar, SymbolSet.mem_singleton.mp hy⟩)
    apply (gives_addFirst hI ht hx hself).imp
    rintro f - y (⟨-, hy⟩ | ⟨hv, -⟩)
    · exact SymbolSet.mem_singleton.mpr hy
    · exact absurd hv hvar
  · next hvar =>
    split
    · next hnone =>
      apply gives_pure ht
      rintro f - y (⟨hv, -⟩ | ⟨-, p, hp, -⟩)
      · exact hvar hv
      · rw [hnone] at hp
        cases hp
    · next p hp =>
      apply (gives_absorbFirsts hI hx hg hown ht (not_not.mp hvar) hp).imp
      rintro f - y (⟨hv, -⟩ | ⟨-, q, hq, c, hc, hy⟩)
      · exact absurd hv hvar
      · obtain rfl : p = q := Option.some.inj (hp.symm.trans hq)
        exact ⟨c, hc, hy⟩

theorem visits_first (hg : g.WellFormed) (b : State) :
    Visits g.FirstRule g.symbols.symbols State.first (FirstInvariant g b)
      (g.Meets fun z => Least g.FirstRule g.symbols.symbols z g.empty) (visitFirst g) where
  field_mark _ _ := rfl
  mark _ marks hs := hs.mark marks
  reads_mem _ _ hy := hy.mem_table hg
  gives hI hx hown hs := gives_visitFirst hg hI hx hown hs

theorem ends_expandFirst (hg : g.WellFormed) (depth : Nat) {x : Symbol}
    (hx : x ∈ g.symbols.symbols) (hs : FirstInvariant g b s) :
    Ends (expandFirst g depth x) s fun _ t =>
      FirstInvariant g b t ∧ FirstExpands g s t ∧ (0 < depth → x ∈ t.marked) := by
  rw [expandFirst_eq]
  exact (visits_first hg b).ends_guarded depth hx hs

theorem ends_firstPass (hg : g.WellFormed) (hs : FirstInvariant g b s) :
    Ends (firstPass g) s fun _ t => FirstInvariant g b t ∧
      FirstExpands g { s with marked := [] } t ∧ ∀ x ∈ g.symbols.symbols, x ∈ t.marked := by
  have hmono := firstRule_monotone g
  have hexpand : ∀ x ∈ g.symbols.symbols, ∀ s, FirstInvariant g b s →
      Ends (expandFirst g (depthLimit g) x) s fun _ t =>
        FirstInvariant g b t ∧ FirstExpands g s t ∧ x ∈ t.marked :=
    fun x hx s hs => (ends_expandFirst hg _ hx hs).imp fun _ t h =>
      ⟨h.1, h.2.1, h.2.2 (Nat.succ_pos _)⟩
  refine ends_bind_modify ?_
  have hlefts : ∀ p ∈ g.productions, ∀ s, FirstInvariant g b s →
      Ends (expandFirst g (depthLimit g) p.left) s fun _ t =>
        FirstInvariant g b t ∧ FirstExpands g s t ∧ p.left ∈ t.marked :=
    fun p hp s hs => hexpand p.left (hg.left_mem p hp) s hs
  apply (Expands.forM_marked hmono hlefts (hs.mark [])).bind
  intro _ t hpost
  obtain ⟨ht, hst, -⟩ := hpost
  apply (Expands.forM_marked hmono hexpand ht).imp
  intro _ u hpost
  obtain ⟨hu, htu, hmarks⟩ := hpost
  exact ⟨hu, hst.trans hmono htu, hmarks⟩

end Pass

section Strings

variable {xs : List Symbol}

theorem ends_getFirst (h : s.first.Over g.symbols.symbols) {x : Symbol}
    (hx : x ∈ g.symbols.symbols) :
    Ends (getFirst g x) s fun found t => found = s.first.get x ∧ s = t := by
  refine ends_bind_get ?_
  rw [h.get?_eq hx]
  exact ends_pure ⟨rfl, rfl⟩

theorem ends_collectFirst (h : s.first.Over g.symbols.symbols)
    (hxs : ∀ x ∈ xs, x ∈ g.symbols.symbols) :
    Ends (collectFirst g xs) s fun found t => found = s.first.firstOf g.empty xs ∧ s = t := by
  induction xs with
  | nil => exact ends_pure ⟨rfl, rfl⟩
  | cons x rest ih =>
    apply (ends_getFirst h (hxs x List.mem_cons_self)).bind
    intro _ _ hpost
    obtain ⟨rfl, rfl⟩ := hpost
    rw [Family.firstOf]
    split
    · apply (ih fun z hz => hxs z (List.mem_cons_of_mem _ hz)).bind
      intro _ _ hpost
      obtain ⟨rfl, rfl⟩ := hpost
      exact ends_pure ⟨rfl, rfl⟩
    · exact ends_pure ⟨rfl, rfl⟩

theorem ends_firstOfString (h : s.first.Over g.symbols.symbols) (hr : s.Remembers g.empty)
    (hxs : ∀ x ∈ xs, x ∈ g.symbols.symbols) :
    Ends (firstOfString g xs) s fun found t => found = s.first.firstOf g.empty xs ∧
      t.Remembers g.empty ∧ ∃ known, t = { s with known } := by
  refine ends_bind_get ?_
  split
  · next found hfound => exact ends_pure ⟨hr xs found hfound, hr, s.known, rfl⟩
  · next hnew =>
    apply (ends_collectFirst h hxs).bind
    intro _ _ hpost
    obtain ⟨rfl, rfl⟩ := hpost
    refine ends_bind_modify (ends_pure ?_)
    refine ⟨rfl, ?_, _, rfl⟩
    intro ys found hlookup
    rw [List.lookup_cons] at hlookup
    split at hlookup
    · next heq =>
      rw [beq_iff_eq] at heq
      subst heq
      exact (Option.some.inj hlookup).symm
    · exact hr ys found hlookup

end Strings

/-- FIRST sets that were computed: a solution, with valid remembered answers. -/
structure FirstSolved (g : Grammar) (fixpoint : Bool) (s : State) : Prop where
  solves : Solves g.FirstRule g.symbols.symbols fixpoint s.first
  remembers : s.Remembers g.empty

theorem FirstSolved.with_known {fixpoint : Bool} (h : FirstSolved g fixpoint s)
    {known : List (Candidate × SymbolSet)} (hr : State.Remembers g.empty { s with known }) :
    FirstSolved g fixpoint { s with known } := ⟨h.solves, hr⟩

theorem FirstSolved.ends_firstOfString {fixpoint : Bool} (h : FirstSolved g fixpoint s)
    {xs : List Symbol} (hxs : ∀ x ∈ xs, x ∈ g.symbols.symbols) :
    Ends (firstOfString g xs) s fun found t => found = s.first.firstOf g.empty xs ∧
      FirstSolved g fixpoint t ∧ ∃ known, t = { s with known } := by
  refine (Solver.ends_firstOfString h.solves.keyed h.remembers hxs).imp ?_
  intro found _ hpost
  obtain ⟨rfl, hr, known, rfl⟩ := hpost
  exact ⟨rfl, h.with_known hr, known, rfl⟩

theorem computeFirst_eq (g : Grammar) (fixpoint : Bool) :
    computeFirst g fixpoint = resetFirst g >>= fun _ =>
      (if fixpoint then untilStable (fun s => s.first.totalSize) (firstPass g) (passLimit g)
        else firstPass g) >>= fun _ =>
      g.productions.forM fun p => p.candidates.forM fun c => discard (firstOfString g c) := by
  cases fixpoint <;> rfl

theorem FirstInvariant.reset (g : Grammar) (s : State) :
    FirstInvariant g { s with first := .blank g.symbols.symbols, known := [] }
      { s with first := .blank g.symbols.symbols, known := [] } :=
  ⟨Family.over_blank _, fun x y hy => absurd hy (Family.not_mem_get_blank x y), rfl, rfl⟩

theorem ends_firstPasses (hg : g.WellFormed) (fixpoint : Bool) {b : State} (hb : b.known = [])
    (hs : FirstInvariant g b s) :
    Ends (if fixpoint then untilStable (fun s => s.first.totalSize) (firstPass g) (passLimit g)
        else firstPass g) s fun _ t => FirstInvariant g b t ∧ FirstSolved g fixpoint t := by
  have hnodup : g.symbols.symbols.Nodup := hg.table.texts.of_map _
  apply (ends_passes (firstRule_monotone g) hnodup (M := g.symbols.symbols)
    (fun _ h => h.keyed) (fun _ h => h.least)
    (fun _ h x y hy => h.least x y hy _ (closes_table hg)) (fun _ => rfl)
    (fun _ h => ends_firstPass hg h) (Nat.lt_succ_self _) fixpoint hs).imp
  intro _ t hpost
  obtain ⟨ht, hsolves⟩ := hpost
  refine ⟨ht, hsolves, fun xs found hlookup => ?_⟩
  rw [ht.known, hb] at hlookup
  cases hlookup

theorem FirstSolved.ends_askCandidates (hg : g.WellFormed) {fixpoint : Bool}
    (h : FirstSolved g fixpoint s) :
    Ends (g.productions.forM fun p => p.candidates.forM fun c => discard (firstOfString g c)) s
      fun _ t => FirstSolved g fixpoint t ∧ ∃ known, t = { s with known } := by
  refine ends_forM (I := fun t => FirstSolved g fixpoint t ∧ ∃ known, t = { s with known })
    (fun p hp t ht => ends_forM (fun c hc t ht => ?_) ht) ⟨h, s.known, rfl⟩
  obtain ⟨hsolved, known, rfl⟩ := ht
  refine (hsolved.ends_firstOfString (hg.candidate_mem p hp c hc)).discard ?_
  intro _ _ hpost
  obtain ⟨-, hu, later, rfl⟩ := hpost
  exact ⟨hu, later, rfl⟩

theorem ends_computeFirst (hg : g.WellFormed) (fixpoint : Bool) (s : State) :
    Ends (computeFirst g fixpoint) s fun _ t =>
      FirstSolved g fixpoint t ∧ t.follow = s.follow := by
  rw [computeFirst_eq]
  refine ends_bind_modify ?_
  apply (ends_firstPasses hg fixpoint rfl (.reset g s)).bind
  intro _ t hpost
  obtain ⟨ht, hsolved⟩ := hpost
  apply (hsolved.ends_askCandidates hg).imp
  intro _ _ hpost
  obtain ⟨hu, known, rfl⟩ := hpost
  exact ⟨hu, ht.follow⟩

end Solver

end GrammarLab
