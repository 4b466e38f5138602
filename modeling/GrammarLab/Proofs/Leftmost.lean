import Mathlib
import GrammarLab.Proofs.Decision

/-!
# Leftmost derivations

A leftmost derivation always replaces the first variable of a form. What a form derives in any
order, it derives so. In a table of exact families the cell of the next terminal, or of the end
marker, holds the candidate that the derivation of a string must use; where no conflict is
recorded there is no other, and the string has one leftmost derivation only.
-/

namespace GrammarLab

namespace Grammar

/-- A derivation that replaces the first variable at each step, with the replacements made. -/
inductive Leftmost (g : Grammar) : List Symbol → List (Symbol × Candidate) → List Symbol → Prop
    where
  | refl (xs : List Symbol) : Leftmost g xs [] xs
  | step {p : Production} {c : Candidate} {before : List Symbol} (after : List Symbol)
      {ds : List (Symbol × Candidate)} {zs : List Symbol} :
      (∀ y ∈ before, ¬y.IsVariable) → p ∈ g.productions → p.left.IsVariable → c ∈ p.candidates →
        Leftmost g (before ++ c.body ++ after) ds zs →
          Leftmost g (before ++ p.left :: after) ((p.left, c) :: ds) zs

variable {g : Grammar}

theorem Leftmost.derives {xs zs : List Symbol} {ds : List (Symbol × Candidate)}
    (h : g.Leftmost xs ds zs) : g.Derives xs zs := by
  induction h with
  | refl => exact .refl _
  | step after _ hp hv hc _ ih => exact .head (.step _ after hp hv hc) ih

theorem Leftmost.of_produces {xs ys zs : List Symbol} (h : g.Produces xs ys)
    {ds : List (Symbol × Candidate)} (hys : g.Leftmost ys ds zs)
    (hzs : ∀ z ∈ zs, z.IsTerminal) : ∃ es, g.Leftmost xs es zs := by
  cases h with
  | @step p c before after hp hv hc =>
    generalize hform : before ++ c.body ++ after = form at hys
    induction hys generalizing before with
    | refl =>
      subst hform
      have hbefore : ∀ y ∈ before, ¬y.IsVariable := fun y hy hvar =>
        hvar.not_terminal (hzs y (List.mem_append_left _ (List.mem_append_left _ hy)))
      exact ⟨_, .step after hbefore hp hv hc (.refl _)⟩
    | @step q d outer rest ds zs houter hq hqv hd hrest ih =>
      rw [List.append_assoc] at hform
      -- The step lies behind the first variable and waits, or it is now the first of all.
      rcases append_eq_split hform with ⟨mid, rfl, rfl⟩ | ⟨mid, rfl, hmid⟩
      · obtain ⟨es, hes⟩ := ih hzs (outer ++ d.body ++ mid) (by simp)
        refine ⟨(q.left, d) :: es, ?_⟩
        have hlater := Leftmost.step (mid ++ p.left :: after) houter hq hqv hd (by simpa using hes)
        simpa using hlater
      · have hbefore : ∀ y ∈ before, ¬y.IsVariable :=
          fun y hy => houter y (List.mem_append_left _ hy)
        have hnext := Leftmost.step rest houter hq hqv hd hrest
        rw [List.append_assoc, ← hmid, ← List.append_assoc] at hnext
        exact ⟨_, .step after hbefore hp hv hc hnext⟩

theorem Derives.exists_leftmost {xs zs : List Symbol} (h : g.Derives xs zs)
    (hzs : ∀ z ∈ zs, z.IsTerminal) : ∃ ds, g.Leftmost xs ds zs := by
  induction h with
  | refl => exact ⟨[], .refl _⟩
  | head hstep _ ih =>
    obtain ⟨ds, hds⟩ := ih hzs
    exact hds.of_produces hstep hzs

theorem first_variable_unique {before after before' after' : List Symbol} {x y : Symbol}
    (h : before ++ x :: after = before' ++ y :: after') (hx : x.IsVariable) (hy : y.IsVariable)
    (hbefore : ∀ z ∈ before, ¬z.IsVariable) (hbefore' : ∀ z ∈ before', ¬z.IsVariable) :
    before = before' ∧ x = y ∧ after = after' := by
  rcases append_eq_split h with ⟨mid, rfl, -⟩ | ⟨mid, rfl, hmid⟩
  · exact absurd hy (hbefore y (by simp))
  · cases mid with
    | nil =>
      obtain ⟨hxy, hafter⟩ := List.cons.inj hmid
      exact ⟨(List.append_nil before).symm, hxy, hafter⟩
    | cons z mid =>
      obtain ⟨rfl, -⟩ := List.cons.inj hmid
      exact absurd hx (hbefore' x (by simp))

theorem Derives.of_no_variable_append {before rest zs : List Symbol}
    (h : g.Derives (before ++ rest) zs) (hbefore : ∀ y ∈ before, ¬y.IsVariable) :
    ∃ v, zs = before ++ v ∧ g.Derives rest v := by
  obtain ⟨us, v, rfl, hus, hv⟩ := h.split
  obtain rfl := hus.eq_of_no_variable hbefore
  exact ⟨v, rfl, hv⟩

end Grammar

namespace Solver

section Machine

variable {g : Grammar} {s : State} (hg : g.WellFormed) (hs : Solved g true s)
  (hconflicts : (tableOf g s).conflicts = [])

include hg hs hconflicts

/-- Two derivations of one string begin with the same candidate. -/
theorem candidate_unique {p q : Production} {c d : Candidate} (hp : p ∈ g.productions)
    (hc : c ∈ p.candidates) (hq : q ∈ g.productions) (hd : d ∈ q.candidates)
    (hleft : p.left = q.left) {after v : List Symbol}
    (hcovered : Covered g s.first s.follow (· = g.endMarker) (p.left :: after))
    (hv : ∀ y ∈ v, y.IsTerminal ∧ y ∈ g.symbols.symbols)
    (hcv : g.Derives (c.body ++ after) v) (hdv : g.Derives (d.body ++ after) v) : c = d := by
  obtain ⟨a, rest, hnext⟩ := List.exists_cons_of_ne_nil
    (List.append_ne_nil_of_right_ne_nil v (List.cons_ne_nil g.endMarker []))
  have hcell := lookup_of_derives hg hs hconflicts hp hc hcovered hcv hv hnext
  rw [hleft] at hcovered hcell
  have hother := lookup_of_derives hg hs hconflicts hq hd hcovered hdv hv hnext
  exact Option.some.inj (hcell.symm.trans hother)

theorem leftmost_eq {form v : List Symbol} {ds es : List (Symbol × Candidate)}
    (hds : g.Leftmost form ds v) (hes : g.Leftmost form es v)
    (hv : ∀ y ∈ v, y.IsTerminal ∧ y ∈ g.symbols.symbols)
    (hcovered : Covered g s.first s.follow (· = g.endMarker) form) : ds = es := by
  induction hds generalizing es with
  | refl xs =>
    cases hes with
    | refl => rfl
    | step after _ _ hvar => exact absurd (hv _ (by simp)).1 hvar.not_terminal
  | @step p c before after ds v hbefore hp hvar hc hrest ih =>
    generalize hform : before ++ p.left :: after = form at hes
    cases hes with
    | refl =>
      subst hform
      exact absurd (hv _ (by simp)).1 hvar.not_terminal
    | @step q d before' after' es _ hbefore' hq hqvar hd hother =>
      obtain ⟨rfl, hleft, rfl⟩ :=
        Grammar.first_variable_unique hform hvar hqvar hbefore hbefore'
      -- What stands before the variable is in the string already and plays no part in the cell.
      have hcd := hrest.derives
      have hdd := hother.derives
      rw [List.append_assoc] at hcd hdd
      obtain ⟨u, rfl, hcu⟩ := hcd.of_no_variable_append hbefore
      obtain ⟨w, huw, hdw⟩ := hdd.of_no_variable_append hbefore
      obtain rfl : u = w := List.append_cancel_left huw
      have htail : Covered g s.first s.follow (· = g.endMarker) (p.left :: after) :=
        hcovered.of_append before
      have hu : ∀ y ∈ u, y.IsTerminal ∧ y ∈ g.symbols.symbols :=
        fun y hy => hv y (List.mem_append_right _ hy)
      obtain rfl := candidate_unique hg hs hconflicts hp hc hq hd hleft htail hu hcu hdw
      have hstep : g.Produces (before ++ p.left :: after) (before ++ c.body ++ after) :=
        .step before after hp hvar hc
      rw [ih hother hv (hcovered.produces hg hs.first.solves hs.follow hstep), hleft]

end Machine

end Solver

/-- A grammar whose analysis records no conflict is unambiguous, if FIRST and FOLLOW are iterated
and the grammar knows its start symbol: the strings of terminals that it derives are those with a
leftmost derivation, and none has two. -/
theorem Analysis.leftmost_unique {config : GrammarConfig} {text : String} {g : Grammar}
    (hfix : config.fixpoint = true) (hread : Grammar.read config text = .ok g) {x : Symbol}
    (hstart : g.start = some x) :
    ∃ a, Analysis.load config text = .ok a ∧ a.grammar = g ∧
      (a.table.conflicts = [] → ∀ w : List Symbol, (∀ y ∈ w, y.IsTerminal) →
        (g.Derives [x] w ↔ ∃ ds, g.Leftmost [x] ds w) ∧
          ∀ ds es, g.Leftmost [x] ds w → g.Leftmost [x] es w → ds = es) := by
  obtain ⟨a, hload, -, hgrammar, hs, htable⟩ := Analysis.exists_load hread
  rw [hfix] at hs
  refine ⟨a, hload, hgrammar, fun hconflicts w hw => ⟨⟨?_, ?_⟩, ?_⟩⟩
  · intro hd
    exact hd.exists_leftmost hw
  · intro hd
    obtain ⟨ds, hds⟩ := hd
    exact hds.derives
  · intro ds es hds hes
    have hg := Grammar.wellFormed_of_read hread
    rw [htable] at hconflicts
    have hknown : ∀ y ∈ w, y.IsTerminal ∧ y ∈ g.symbols.symbols :=
      fun y hy => ⟨hw y hy, hg.mem_of_start_derives hstart hds.derives y hy⟩
    exact Solver.leftmost_eq hg hs hconflicts hds hes hknown (Solver.covered_start hs.follow hstart)

/-- Variables that can be empty, one behind the other. -/
theorem Analysis.leftmost_unique_nullable :
    ∃ g x a, Grammar.read {} "S->AB\nA->aA|$\nB->bB|$" = .ok g ∧ g.start = some x ∧
      Analysis.load {} "S->AB\nA->aA|$\nB->bB|$" = .ok a ∧ a.table.conflicts = [] ∧
      ∀ w : List Symbol, (∀ y ∈ w, y.IsTerminal) →
        (g.Derives [x] w ↔ ∃ ds, g.Leftmost [x] ds w) ∧
          ∀ ds es, g.Leftmost [x] ds w → g.Leftmost [x] es w → ds = es := by
  obtain ⟨g, hg, hknown⟩ : ∃ g, Grammar.read {} "S->AB\nA->aA|$\nB->bB|$" = .ok g ∧
      g.start.isSome := by decide +kernel
  obtain ⟨x, hstart⟩ := Option.isSome_iff_exists.mp hknown
  obtain ⟨a, ha, -, hunique⟩ := leftmost_unique rfl hg hstart
  obtain ⟨b, hb, hconflicts⟩ : ∃ b, Analysis.load {} "S->AB\nA->aA|$\nB->bB|$" = .ok b ∧
      b.table.conflicts = [] := by decide +kernel
  obtain rfl : b = a := Except.ok.inj (hb.symm.trans ha)
  exact ⟨g, x, b, hg, hstart, ha, hconflicts, hunique hconflicts⟩

end GrammarLab
