import Mathlib
import GrammarLab.Parse.Machine

/-!
# Runs of the stack machine

A finished run is a chain of matches and replacements that ends in acceptance or in a stuck
configuration. The relation says so without a limit on the number of moves; a run is finished
within some limit exactly if the relation holds.
-/

namespace GrammarLab

def Move.Leads (P : Configuration → Prop) : Move → Prop
  | .consume _ next => P next
  | .derive _ _ next => P next
  | .accept => True
  | .stuck _ => False

namespace ParsingTable

variable {t : ParsingTable} {e : Symbol}

/-- A finished run from a configuration, move by move. -/
inductive Runs (t : ParsingTable) (e : Symbol) : Configuration → Run → Prop where
  | consume {s : Symbol} {below rest : List Symbol} {r : Run} :
      s.IsTerminal → Runs t e ⟨below, rest⟩ r →
        Runs t e ⟨s :: below, s :: rest⟩ (r.after ⟨s :: (below ++ [e]), s :: rest, .consume s⟩)
  | derive {s a : Symbol} {c : Candidate} {below rest : List Symbol} {r : Run} :
      ¬(s.IsTerminal ∧ s = a) → t.lookup s a = some c → Runs t e ⟨c.body ++ below, a :: rest⟩ r →
        Runs t e ⟨s :: below, a :: rest⟩ (r.after ⟨s :: (below ++ [e]), a :: rest, .derive s c⟩)
  | accept : Runs t e ⟨[], [e]⟩ ⟨[⟨[e], [], .accept⟩], .accepted⟩
  | stuck {k : Configuration} {cause : Cause} : t.move e k = .stuck cause →
      Runs t e k
        ⟨[⟨k.stack e, k.remaining, .stuck cause.symbol cause.lookahead⟩], .rejected cause⟩

theorem move_cases (t : ParsingTable) (e : Symbol) (k : Configuration) :
    (∃ s below rest, k = ⟨s :: below, s :: rest⟩ ∧ s.IsTerminal ∧
      t.move e k = .consume s ⟨below, rest⟩) ∨
    (∃ s a c below rest, k = ⟨s :: below, a :: rest⟩ ∧ ¬(s.IsTerminal ∧ s = a) ∧
      t.lookup s a = some c ∧ t.move e k = .derive s c ⟨c.body ++ below, a :: rest⟩) ∨
    (k = ⟨[], [e]⟩ ∧ t.move e k = .accept) ∨
    ∃ cause, t.move e k = .stuck cause := by
  obtain ⟨above, remaining⟩ := k
  cases above with
  | nil =>
    cases remaining with
    | nil => exact .inr (.inr (.inr ⟨_, rfl⟩))
    | cons a rest =>
      by_cases hlast : a :: rest = [e]
      · exact .inr (.inr (.inl ⟨by rw [hlast], if_pos hlast⟩))
      · exact .inr (.inr (.inr ⟨_, if_neg hlast⟩))
  | cons s below =>
    cases remaining with
    | nil => exact .inr (.inr (.inr ⟨_, rfl⟩))
    | cons a rest =>
      by_cases hmatch : s.IsTerminal ∧ s = a
      · obtain ⟨ht, rfl⟩ := hmatch
        exact .inl ⟨s, below, rest, rfl, ht, if_pos ⟨ht, rfl⟩⟩
      · have hmove : t.move e ⟨s :: below, a :: rest⟩ = _ := if_neg hmatch
        cases hrow : t.row s with
        | none =>
          rw [hrow] at hmove
          exact .inr (.inr (.inr ⟨_, hmove⟩))
        | some r =>
          cases hcell : r.cell a with
          | none =>
            simp only [hrow, hcell] at hmove
            exact .inr (.inr (.inr ⟨_, hmove⟩))
          | some c =>
            simp only [hrow, hcell] at hmove
            have hlookup : t.lookup s a = some c := by rw [lookup, hrow]; exact hcell
            exact .inr (.inl ⟨s, a, c, below, rest, rfl, hmatch, hlookup, hmove⟩)

theorem move_consume {s : Symbol} {below rest : List Symbol} (h : s.IsTerminal) :
    t.move e ⟨s :: below, s :: rest⟩ = .consume s ⟨below, rest⟩ := if_pos ⟨h, rfl⟩

theorem move_derive {s a : Symbol} {c : Candidate} {below rest : List Symbol}
    (hmatch : ¬(s.IsTerminal ∧ s = a)) (hcell : t.lookup s a = some c) :
    t.move e ⟨s :: below, a :: rest⟩ = .derive s c ⟨c.body ++ below, a :: rest⟩ := by
  obtain ⟨r, hrow, hr⟩ := Option.bind_eq_some_iff.mp hcell
  have hmove : t.move e ⟨s :: below, a :: rest⟩ = _ := if_neg hmatch
  simpa only [hrow, hr] using hmove

theorem runs_of_run {limit : Nat} {k : Configuration} {r : Run} (h : t.run e limit k = some r) :
    t.Runs e k r := by
  induction limit generalizing k r with
  | zero => cases h
  | succ limit ih =>
    rw [run] at h
    rcases move_cases t e k with ⟨s, below, rest, rfl, ht, hmove⟩ |
      ⟨s, a, c, below, rest, rfl, hmatch, hcell, hmove⟩ | ⟨rfl, hmove⟩ | ⟨cause, hmove⟩
    · rw [hmove] at h
      obtain ⟨tail, htail, rfl⟩ := Option.map_eq_some_iff.mp h
      exact .consume ht (ih htail)
    · rw [hmove] at h
      obtain ⟨tail, htail, rfl⟩ := Option.map_eq_some_iff.mp h
      exact .derive hmatch hcell (ih htail)
    · rw [hmove] at h
      cases h
      exact .accept
    · rw [hmove] at h
      cases h
      exact .stuck hmove

theorem exists_run_of_runs {k : Configuration} {r : Run} (h : t.Runs e k r) :
    ∃ limit, t.run e limit k = some r := by
  induction h with
  | consume ht _ ih =>
    obtain ⟨limit, hrun⟩ := ih
    refine ⟨limit + 1, ?_⟩
    rw [run, move_consume ht]
    exact Option.map_eq_some_iff.mpr ⟨_, hrun, rfl⟩
  | derive hmatch hcell _ ih =>
    obtain ⟨limit, hrun⟩ := ih
    refine ⟨limit + 1, ?_⟩
    rw [run, move_derive hmatch hcell]
    exact Option.map_eq_some_iff.mpr ⟨_, hrun, rfl⟩
  | accept =>
    refine ⟨1, ?_⟩
    have hmove : t.move e ⟨[], [e]⟩ = .accept := if_pos rfl
    rw [run, hmove]
    rfl
  | stuck hmove =>
    refine ⟨1, ?_⟩
    rw [run, hmove]

theorem runs_iff {k : Configuration} {r : Run} :
    t.Runs e k r ↔ ∃ limit, t.run e limit k = some r := by
  constructor
  · intro h
    exact exists_run_of_runs h
  · intro h
    obtain ⟨limit, hrun⟩ := h
    exact runs_of_run hrun

def Halts (t : ParsingTable) (e : Symbol) (k : Configuration) : Prop := ∃ r, t.Runs e k r

theorem Halts.consume {s : Symbol} {below rest : List Symbol} (hs : s.IsTerminal)
    (h : t.Halts e ⟨below, rest⟩) : t.Halts e ⟨s :: below, s :: rest⟩ := by
  obtain ⟨r, hr⟩ := h
  exact ⟨_, .consume hs hr⟩

theorem Halts.derive {s a : Symbol} {c : Candidate} {below rest : List Symbol}
    (hmatch : ¬(s.IsTerminal ∧ s = a)) (hcell : t.lookup s a = some c)
    (h : t.Halts e ⟨c.body ++ below, a :: rest⟩) : t.Halts e ⟨s :: below, a :: rest⟩ := by
  obtain ⟨r, hr⟩ := h
  exact ⟨_, .derive hmatch hcell hr⟩

/-- The machine halts on every configuration if it does with one more symbol on a stack on which it
halts, given that it halts on all stacks with less input. -/
theorem halts_of_top
    (h : ∀ x a below rest, (∀ above, t.Halts e ⟨above, rest⟩) → t.Halts e ⟨below, a :: rest⟩ →
      t.Halts e ⟨x :: below, a :: rest⟩) (k : Configuration) : t.Halts e k := by
  obtain ⟨above, remaining⟩ := k
  induction remaining generalizing above with
  | nil => cases above <;> exact ⟨_, .stuck rfl⟩
  | cons a rest ihInput =>
    induction above with
    | nil =>
      by_cases hlast : a :: rest = [e]
      · rw [hlast]
        exact ⟨_, .accept⟩
      · exact ⟨_, .stuck (if_neg hlast)⟩
    | cons x below ihStack => exact h x a below rest ihInput ihStack

theorem Runs.accepted_of_leads {P : Configuration → Prop}
    (hstep : ∀ k, P k → (t.move e k).Leads P) {k : Configuration} {r : Run} (h : t.Runs e k r)
    (hk : P k) : r.verdict = .accepted := by
  induction h with
  | consume hs _ ih =>
    have hnext := hstep _ hk
    rw [move_consume hs] at hnext
    exact ih hnext
  | derive hmatch hcell _ ih =>
    have hnext := hstep _ hk
    rw [move_derive hmatch hcell] at hnext
    exact ih hnext
  | accept => rfl
  | stuck hmove =>
    have hnext := hstep _ hk
    rw [hmove] at hnext
    exact hnext.elim

theorem Runs.terminals_of_accepted {k : Configuration} {r : Run} (h : t.Runs e k r)
    (haccepted : r.verdict = .accepted) :
    ∃ us, k.remaining = us ++ [e] ∧ ∀ u ∈ us, u.IsTerminal := by
  induction h with
  | @consume s below rest r hs _ ih =>
    obtain ⟨us, hus, hterminals⟩ := ih haccepted
    refine ⟨s :: us, congrArg (s :: ·) hus, ?_⟩
    intro u hu
    rcases List.mem_cons.mp hu with rfl | hu
    · exact hs
    · exact hterminals u hu
  | derive _ _ _ ih => exact ih haccepted
  | accept => exact ⟨[], rfl, fun u hu => absurd hu List.not_mem_nil⟩
  | stuck => cases haccepted

theorem Runs.success_of_accepted {k : Configuration} {r : Run} (h : t.Runs e k r)
    (haccepted : r.verdict = .accepted) :
    ∃ before s, r.trace = before ++ [s] ∧ s.action = .accept := by
  induction h with
  | consume _ _ ih =>
    obtain ⟨before, s, hsplit, hs⟩ := ih haccepted
    exact ⟨_ :: before, s, congrArg (_ :: ·) hsplit, hs⟩
  | derive _ _ _ ih =>
    obtain ⟨before, s, hsplit, hs⟩ := ih haccepted
    exact ⟨_ :: before, s, congrArg (_ :: ·) hsplit, hs⟩
  | accept => exact ⟨[], _, rfl, rfl⟩
  | stuck => cases haccepted

end ParsingTable

end GrammarLab
