import Mathlib
import GrammarLab.Proofs.Nesting

/-!
# Passes and their number

A pass expands each of its keys once, and while it lasts no set shrinks. Passes that are repeated
without a limit come to an end: every pass but the last enlarges the total size, which is bounded by
the number of pairs of symbols. The family reached is closed under the rules, and one more pass
leaves all its sets as they are.
-/

namespace GrammarLab.Solver

/-- A pass of FIRST whose expansions may nest to the depth. -/
def firstPassTo (g : Grammar) (depth : Nat) : Compute Unit := do
  clearMarks
  g.productions.forM fun p => expandFirst g depth p.left
  g.symbols.symbols.forM (expandFirst g depth)

def followPassTo (g : Grammar) (fixpoint : Bool) (depth : Nat) : Compute Unit := do
  clearMarks
  g.productions.forM fun p => expandFollow g fixpoint depth p.left

structure PassRun (keys : List Symbol) (pass : Nat → Compute Unit) (depth : Nat) (s t : State) :
    Prop where
  /-- No expansion nests deeper, whatever nesting is allowed. -/
  run : ∀ more, depth ≤ more → (pass more).run s = .ok () t
  /-- An expansion sets one mark, so each key was expanded once and nothing else was. -/
  expanded : t.marked.Perm keys
  /-- From each moment to every later one marks are kept and no set shrinks. -/
  moments : ∃ path, List.IsChain Change ({ s with marked := [] } :: path) ∧
    ({ s with marked := [] } :: path).getLast? = some t ∧
    ({ s with marked := [] } :: path).Pairwise Later

/-- Passes repeated until the size stands still, as many as it takes. -/
inductive Repeats (size : State → Nat) (pass : State → State → Prop) : Nat → State → State → Prop
    where
  | last {s t : State} : pass s t → size t = size s → Repeats size pass 1 s t
  | more {n : Nat} {s t u : State} : pass s t → size t ≠ size s → Repeats size pass n t u →
      Repeats size pass (n + 1) s u

/-- No set is smaller after an expansion than before it, at any depth and from any state. -/
structure ExpansionsGrow (g : Grammar) (fixpoint : Bool) : Prop where
  first : ∀ depth x, Grows (expandFirst g depth x)
  follow : ∀ depth x, Grows (expandFollow g fixpoint depth x)

/-- The passes of a computation. In one mode there is one of them. In the other mode there are at
most as many as pairs of symbols and one more, and the next one would change no set. -/
structure Finishes (g : Grammar) (fixpoint : Bool) (keys : List Symbol) (field : State → Family)
    (pass : Nat → Compute Unit) (s t : State) : Prop where
  single : fixpoint = false → PassRun keys pass (depthLimit g) s t
  repeated : fixpoint = true → ∃ n ≤ g.symbols.size * g.symbols.size + 1,
    Repeats (fun s => (field s).totalSize) (PassRun keys pass (depthLimit g)) n s t
  stable : fixpoint = true → ∃ u, PassRun keys pass (depthLimit g) t u ∧
    ∀ x y, y ∈ (field u).get x ↔ y ∈ (field t).get x

variable {s t : State}

section Loop

variable {size : State → Nat} {pass : State → State → Prop} {I Q : State → Prop} {bound : Nat}

theorem exists_repeats (hbound : ∀ s, I s → size s ≤ bound)
    (hpass : ∀ s, I s → ∃ t, pass s t ∧ I t ∧ size s ≤ size t ∧ (size t = size s → Q t))
    (hs : I s) :
    ∃ n t, Repeats size pass n s t ∧ n + size s ≤ bound + 1 ∧ I t ∧ Q t := by
  induction hroom : bound - size s using Nat.strong_induction_on generalizing s with
  | _ room ih =>
    obtain ⟨t, hst, ht, hle, hstable⟩ := hpass s hs
    have hs' := hbound s hs
    have ht' := hbound t ht
    by_cases heq : size t = size s
    · exact ⟨1, t, .last hst heq, by omega, ht, hstable heq⟩
    · obtain ⟨n, u, hrest, hn, hu, hQ⟩ := ih _ (by omega) ht rfl
      exact ⟨n + 1, u, .more hst heq hrest, by omega, hu, hQ⟩

theorem Repeats.run_untilStable {act : Compute Unit} {n limit : Nat}
    (hact : ∀ s t, pass s t → act.run s = .ok () t) (h : Repeats size pass n s t)
    (hlimit : n ≤ limit) : (untilStable size act limit).run s = .ok () t := by
  have hround : ∀ {s t : State} (limit : Nat), act.run s = .ok () t →
      (untilStable size act (limit + 1)).run s =
        if size t = size s then .ok () t else (untilStable size act limit).run t := by
    intro s t limit hrun
    show EStateM.run (act >>= fun _ => get >>= fun after => _) s = _
    rw [EStateM.run_bind, hrun]
    show EStateM.run (if size t = size s then pure () else untilStable size act limit) t = _
    split <;> rfl
  induction h generalizing limit with
  | last hst heq =>
    obtain ⟨limit, rfl⟩ : ∃ m, limit = m + 1 := ⟨limit - 1, by omega⟩
    rw [hround limit (hact _ _ hst), if_pos heq]
  | more hst hne _ ih =>
    obtain ⟨limit, rfl⟩ : ∃ m, limit = m + 1 := ⟨limit - 1, by omega⟩
    rw [hround limit (hact _ _ hst), if_neg hne]
    exact ih (by omega)

end Loop

section Marks

variable {rules : Rules} {keys : List Symbol} {field : State → Family} {J : State → Prop}
  {reads : Symbol → Symbol → Prop} {visit : (Symbol → Compute Unit) → Symbol → Compute Unit}

theorem Visits.ends_guarded_marks (h : Visits rules keys field J reads visit) (depth : Nat)
    {x : Symbol} (hx : x ∈ keys) (hs : J s ∧ s.marked ⊆ keys) :
    Ends (guarded visit depth x) s fun _ t => J t ∧ t.marked ⊆ keys := by
  induction depth generalizing x s with
  | zero => exact ends_pure hs
  | succ depth ih =>
    by_cases hknown : x ∈ s.marked
    · exact ends_guarded_of_marked hknown _ hs
    refine ends_guarded_of_new hknown ?_
    have hown : ∀ y, reads x y → ∀ t, (J t ∧ t.marked ⊆ keys) ∧ (field s).Le (field t) →
        GivesOwn rules field (fun t => (J t ∧ t.marked ⊆ keys) ∧ (field s).Le (field t))
          (· = field s) y (guarded visit depth y) t := by
      intro y hy t ht
      have hmem := h.reads_mem x y hy
      have hboth := (ih hmem ht.1).and (h.ends_guarded depth hmem ht.1.1)
      refine givesOwn_of_expands ht.2 (hboth.imp ?_)
      exact fun _ u k => ⟨k.1, k.2.2.1⟩
    have hrefines : Refines field J fun t => (J t ∧ t.marked ⊆ keys) ∧ (field s).Le (field t) :=
      ⟨fun k => k.1.1, fun k ht hle hm => ⟨⟨ht, hm ▸ k.1.2⟩, k.2.trans hle⟩⟩
    have hbegin : (field s).Le (field { s with marked := x :: s.marked }) :=
      h.field_mark s (x :: s.marked) ▸ Family.Le.refl _
    have hmarks : x :: s.marked ⊆ keys := List.cons_subset.mpr ⟨hx, hs.2⟩
    apply Ends.imp (h.gives hrefines hx hown ⟨⟨h.mark s _ hs.1, hmarks⟩, hbegin⟩)
    exact fun _ t k => k.1.1

end Marks

section Family

variable {g : Grammar} {fixpoint : Bool} {rules : Rules} {keys : List Symbol}
  {field : State → Family} {I : State → Prop} {pass : Nat → Compute Unit}

theorem PassRun.of_changes {depth : Nat}
    (hrun : ∀ more, depth ≤ more → (pass more).run s = .ok () t)
    (hchanges : Changes { s with marked := [] } t) (hnodup : keys.Nodup) (hwithin : t.marked ⊆ keys)
    (hall : ∀ x ∈ keys, x ∈ t.marked) : PassRun keys pass depth s t where
  run := hrun
  expanded := (List.perm_ext_iff_of_nodup (hchanges.nodup_marked List.nodup_nil) hnodup).mpr
    fun x => ⟨fun hx => hwithin hx, hall x⟩
  moments := hchanges.exists_moments

variable (g fixpoint) in
/-- Passes that follow rules finish, and with a limit on their number they do the same. -/
theorem ends_finishes (hmono : Monotone rules) (hnodup : keys.Nodup)
    (hover : ∀ s, I s → (field s).Over keys)
    (hmem : ∀ s, I s → ∀ x y, y ∈ (field s).get x → y ∈ g.symbols.symbols)
    (hleast : ∀ s, I s → ∀ x y, y ∈ (field s).get x → Least rules keys x y)
    (hfield : ∀ s, field { s with marked := [] } = field s)
    (hpass : ∀ s, I s → ∃ t, PassRun keys pass (depthLimit g) s t ∧ I t ∧
      Expands rules field { s with marked := [] } t ∧ ∀ x ∈ keys, x ∈ t.marked)
    (hkeys : keys.length ≤ g.symbols.size) (hs : I s) :
    Ends (if fixpoint then
        untilStable (fun s => (field s).totalSize) (pass (depthLimit g)) (passLimit g)
      else pass (depthLimit g)) s fun _ t => Finishes g fixpoint keys field pass s t := by
  cases fixpoint with
  | false =>
    obtain ⟨t, hst, ht, -, -⟩ := hpass s hs
    exact ⟨(), t, hst.run _ le_rfl, fun _ => hst, nofun, nofun⟩
  | true =>
    have hgrowing : ∀ s, I s → ∃ t, PassRun keys pass (depthLimit g) s t ∧ I t ∧
        (field s).totalSize ≤ (field t).totalSize ∧
        ((field t).totalSize = (field s).totalSize →
          ∀ x ∈ keys, ∀ y, rules (field t) x y → y ∈ (field t).get x) := by
      intro s hs
      obtain ⟨t, hst, ht, hexp, hmarks⟩ := hpass s hs
      have hle : (field s).Le (field t) := hfield s ▸ hexp.grows
      refine ⟨t, hst, ht, Family.totalSize_le (hover s hs) (hover t ht) hnodup hle, ?_⟩
      intro hsize x hx y hy
      have hback := Family.le_of_totalSize_eq (hover s hs) (hover t ht) hnodup hle hsize
      exact hexp.closed_of_stalled hmono rfl ((hfield s).symm ▸ hback) (hmarks x hx) hy
    have hbound : ∀ s, I s → (field s).totalSize ≤ g.symbols.size * g.symbols.size :=
      fun s hs => (Family.totalSize_bound (hover s hs) hnodup (hmem s hs)).trans
        (Nat.mul_le_mul_right _ hkeys)
    obtain ⟨n, t, hrepeats, hn, ht, hclosed⟩ := exists_repeats hbound hgrowing hs
    have hlimit : n ≤ g.symbols.size * g.symbols.size + 1 := by omega
    -- a further pass stays within the least solution, which a closed family holds already
    have hall : ∀ x y, Least rules keys x y → y ∈ (field t).get x := fun x y hy =>
      hy (fun x y => y ∈ (field t).get x) fun k hk x hx y hy =>
        hclosed x hx y (hmono k _ hk x y hy)
    obtain ⟨v, htv, hv, hexp, -⟩ := hpass t ht
    have hgrows : (field t).Le (field v) := hfield t ▸ hexp.grows
    have hrun := hrepeats.run_untilStable (fun s t h => h.run _ le_rfl) hlimit
    refine ⟨(), t, hrun, nofun, fun _ => ⟨n, hlimit, hrepeats⟩, fun _ => ⟨v, htv, fun x y => ?_⟩⟩
    exact ⟨fun hy => hall x y (hleast v hv x y hy), hgrows x y⟩

end Family

section Solver

variable {g : Grammar} {fixpoint : Bool} {b : State} {first : Family} {depth : Nat}

theorem forM_congr {α : Type} {loop again : α → Compute Unit} {as : List α}
    (h : ∀ a ∈ as, loop a = again a) : as.forM loop = as.forM again := by
  induction as with
  | nil => rfl
  | cons a rest ih =>
    have hrest := ih fun b hb => h b (List.mem_cons_of_mem _ hb)
    show (loop a >>= fun _ => rest.forM loop) = (again a >>= fun _ => rest.forM again)
    rw [h a List.mem_cons_self, hrest]

theorem firstPassTo_eq (hg : g.WellFormed) (h : depthLimit g ≤ depth) :
    firstPassTo g depth = firstPass g := by
  have hexpand : ∀ x ∈ g.symbols.symbols,
      expandFirst g depth x = expandFirst g (depthLimit g) x := by
    intro x hx
    rw [expandFirst_eq]
    exact ((expanding_visitFirst hg).guarded_eq (length_nonTerminals_lt_depthLimit g) h hx).symm
  rw [firstPassTo, firstPass, forM_congr hexpand,
    forM_congr fun p hp => hexpand _ (hg.left_mem p hp)]

theorem followPassTo_eq (g : Grammar) (fixpoint : Bool) (h : depthLimit g ≤ depth) :
    followPassTo g fixpoint depth = followPass g fixpoint := by
  rw [followPassTo, followPass, expandFollow_eq]
  refine congrArg _ (funext fun _ => forM_congr fun p hp => ?_)
  exact ((expanding_visitFollow g fixpoint).guarded_eq (length_nonTerminals_lt_depthLimit g) h
    (List.mem_map_of_mem hp)).symm

theorem exists_passRun_first (hg : g.WellFormed) (hs : FirstInvariant g b s) :
    ∃ t, PassRun g.symbols.symbols (firstPassTo g) (depthLimit g) s t ∧ FirstInvariant g b t ∧
      FirstExpands g { s with marked := [] } t ∧ ∀ x ∈ g.symbols.symbols, x ∈ t.marked := by
  have hexpand : ∀ x ∈ g.symbols.symbols, ∀ s,
      FirstInvariant g b s ∧ s.marked ⊆ g.symbols.symbols →
        Ends (expandFirst g (depthLimit g) x) s fun _ t =>
          FirstInvariant g b t ∧ t.marked ⊆ g.symbols.symbols := by
    rw [expandFirst_eq]
    exact fun x hx s hs => (visits_first hg b).ends_guarded_marks _ hx hs
  have hmarks : Ends (firstPass g) s fun _ t =>
      FirstInvariant g b t ∧ t.marked ⊆ g.symbols.symbols := by
    refine ends_bind_modify ?_
    refine (ends_forM (fun p hp => hexpand _ (hg.left_mem p hp)) ⟨hs.mark [], ?_⟩).bind ?_
    · exact List.nil_subset _
    · exact fun _ t ht => ends_forM hexpand ht
  obtain ⟨_, t, hrun, ⟨ht, hexp, hall⟩, -, hwithin⟩ := (ends_firstPass hg hs).and hmarks
  have hsteps : Steps (g.productions.forM (fun p => expandFirst g (depthLimit g) p.left) >>=
      fun _ => g.symbols.symbols.forM (expandFirst g (depthLimit g))) :=
    (steps_forM (fun p : Production => steps_expandFirst g _ p.left) _).bind fun _ =>
      steps_forM (steps_expandFirst g _) _
  refine ⟨t, .of_changes (fun more h => ?_) ((hsteps _).changes hrun) (hg.table.texts.of_map _)
    hwithin hall, ht, hexp, hall⟩
  rw [firstPassTo_eq hg h]
  exact hrun

theorem exists_passRun_follow (hg : g.WellFormed) (hs : FollowInvariant g fixpoint first s) :
    ∃ t, PassRun g.nonTerminals (followPassTo g fixpoint) (depthLimit g) s t ∧
      FollowInvariant g fixpoint first t ∧
      FollowExpands g fixpoint first { s with marked := [] } t ∧
      ∀ x ∈ g.nonTerminals, x ∈ t.marked := by
  have hmarks : Ends (followPass g fixpoint) s fun _ t =>
      FollowInvariant g fixpoint first t ∧ t.marked ⊆ g.nonTerminals := by
    rw [followPass, expandFollow_eq]
    refine ends_bind_modify (ends_forM (fun p hp s hs => ?_) ⟨hs.mark [], List.nil_subset _⟩)
    exact (visits_follow hg fixpoint first).ends_guarded_marks _ (List.mem_map_of_mem hp) hs
  obtain ⟨_, t, hrun, ⟨ht, hexp, hall⟩, -, hwithin⟩ := (ends_followPass hg hs).and hmarks
  have hsteps : Steps (g.productions.forM fun p => expandFollow g fixpoint (depthLimit g) p.left) :=
    steps_forM (fun p : Production => steps_expandFollow g fixpoint _ p.left) _
  refine ⟨t, .of_changes (fun more h => ?_) ((hsteps _).changes hrun) hg.lefts_nodup hwithin hall,
    ht, hexp, hall⟩
  rw [followPassTo_eq g fixpoint h]
  exact hrun

theorem ends_computeFirst_finishes (hg : g.WellFormed) (fixpoint : Bool) (s : State) :
    Ends (computeFirst g fixpoint) s fun _ u => FirstSolved g fixpoint u ∧
      ∃ t, Finishes g fixpoint g.symbols.symbols State.first (firstPassTo g)
          { s with first := .blank g.symbols.symbols, known := [] } t ∧
        u.marked = t.marked ∧ u.first = t.first := by
  have hnodup : g.symbols.symbols.Nodup := hg.table.texts.of_map _
  have hbegin := FirstInvariant.reset g s
  have hpasses := ends_finishes g fixpoint (firstRule_monotone g) hnodup
    (fun _ h => h.keyed) (fun _ h x y hy => h.least x y hy _ (closes_table hg)) (fun _ h => h.least)
    (fun _ => rfl) (fun _ h => exists_passRun_first hg h) le_rfl hbegin
  rw [computeFirst_eq]
  refine ends_bind_modify ?_
  apply (hpasses.and (ends_firstPasses hg fixpoint rfl hbegin)).bind
  intro _ t hpost
  obtain ⟨hfinishes, -, hsolved⟩ := hpost
  apply (hsolved.ends_askCandidates hg).imp
  intro _ _ hpost
  obtain ⟨hu, known, rfl⟩ := hpost
  exact ⟨hu, t, hfinishes, rfl, rfl⟩

theorem ends_computeFollow_finishes (hg : g.WellFormed) (hs : FirstSolved g fixpoint s) :
    Ends (computeFollow g fixpoint) s fun _ t =>
      Finishes g fixpoint g.nonTerminals State.follow (followPassTo g fixpoint)
        { s with follow := .blank g.nonTerminals } t := by
  have hfirst : ∀ x y, y ∈ s.first.get x → y ∈ g.symbols.symbols :=
    fun x y hy => hs.solves.least x y hy _ (closes_table hg)
  refine ends_bind_modify ?_
  exact ends_finishes g fixpoint (followRule_monotone g s.first fixpoint)
    hg.lefts_nodup (fun _ h => h.keyed)
    (fun _ h x y hy => h.least x y hy _ (closes_follow_table hg hfirst)) (fun _ h => h.least)
    (fun _ => rfl) (fun _ h => exists_passRun_follow hg h) (length_nonTerminals_le hg)
    hs.followInvariant

theorem expansionsGrow (g : Grammar) (fixpoint : Bool) : ExpansionsGrow g fixpoint where
  first depth x := (steps_expandFirst g depth x).grows
  follow depth x := (steps_expandFollow g fixpoint depth x).grows

/-- Whatever cycles a grammar has, the passes of both computations come to an end. -/
theorem solver_finishes {config : GrammarConfig} {text : String} {g : Grammar}
    (hread : Grammar.read config text = .ok g) (fixpoint : Bool) (s : State) :
    ExpansionsGrow g fixpoint ∧ ∃ t u v,
      Finishes g fixpoint g.symbols.symbols State.first (firstPassTo g)
        { s with first := .blank g.symbols.symbols, known := [] } t ∧
      (computeFirst g fixpoint).run s = .ok () u ∧ u.marked = t.marked ∧ u.first = t.first ∧
      Finishes g fixpoint g.nonTerminals State.follow (followPassTo g fixpoint)
        { u with follow := .blank g.nonTerminals } v ∧
      (computeFollow g fixpoint).run u = .ok () v := by
  have hg := Grammar.wellFormed_of_read hread
  obtain ⟨_, u, hrun, hsolved, t, hfirst, hmarked, hsets⟩ :=
    ends_computeFirst_finishes hg fixpoint s
  obtain ⟨_, v, hrun', hfollow⟩ := ends_computeFollow_finishes hg hsolved
  exact ⟨expansionsGrow g fixpoint, t, u, v, hfirst, hrun, hmarked, hsets, hfollow, hrun'⟩

/-- Both variables lead back to themselves, directly and through each other. -/
theorem solver_finishes_cycles :
    ∃ g t u v, Grammar.read {} "S->Sa|A\nA->S|AA|$" = .ok g ∧ ExpansionsGrow g true ∧
      Finishes g true g.symbols.symbols State.first (firstPassTo g)
        { first := .blank g.symbols.symbols } t ∧
      (computeFirst g true).run {} = .ok () u ∧ u.marked = t.marked ∧ u.first = t.first ∧
      Finishes g true g.nonTerminals State.follow (followPassTo g true)
        { u with follow := .blank g.nonTerminals } v ∧
      (computeFollow g true).run u = .ok () v := by
  obtain ⟨g, hread, -⟩ : ∃ g, Grammar.read {} "S->Sa|A\nA->S|AA|$" = .ok g ∧ True := by
    decide +kernel
  obtain ⟨hgrow, t, u, v, hfinishes⟩ := solver_finishes hread true {}
  exact ⟨g, t, u, v, hread, hgrow, hfinishes⟩

end Solver

end GrammarLab.Solver
