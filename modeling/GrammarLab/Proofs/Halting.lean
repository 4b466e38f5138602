import Mathlib
import GrammarLab.Proofs.FollowDerivation
import GrammarLab.Proofs.Run
import GrammarLab.Proofs.Table

/-!
# Halting without conflicts

Where the table of exact families has no conflicts, the machine halts on every configuration. The
candidate in a cell was entered because it begins with the lookahead, or because it can be empty and
the lookahead follows its left symbol. Either way the machine retraces a leftmost derivation, which
exposes the lookahead on the stack or takes the symbol off it; a configuration with less input is
reached, or one with as much input and a smaller stack.
-/

namespace GrammarLab

/-- Leftmost derivation steps lead from the form to the empty one, or to one that begins with the
given terminal. -/
inductive Grammar.Exposes (g : Grammar) (top : Option Symbol) : List Symbol → Prop where
  | nil : top = none → Exposes g top []
  | head {a : Symbol} (rest : List Symbol) : a.IsTerminal → top = some a → Exposes g top (a :: rest)
  | expand {p : Production} {c : Candidate} {rest : List Symbol} :
      p ∈ g.productions → p.left.IsVariable → c ∈ p.candidates →
        Exposes g top (c.body ++ rest) → Exposes g top (p.left :: rest)

namespace Grammar

variable {g : Grammar} {top : Option Symbol}

theorem Exposes.of_produces {xs ys : List Symbol} (h : g.Produces xs ys) (hys : g.Exposes top ys) :
    g.Exposes top xs := by
  cases h with
  | @step p c before after hp hv hc =>
    generalize hform : before ++ c.body ++ after = form at hys
    induction hys generalizing before with
    | nil htop =>
      obtain ⟨hfront, rfl⟩ := List.append_eq_nil_iff.mp hform
      obtain ⟨rfl, hbody⟩ := List.append_eq_nil_iff.mp hfront
      refine .expand hp hv hc ?_
      rw [hbody]
      exact .nil htop
    | head rest ht htop =>
      cases before with
      | nil =>
        refine .expand hp hv hc ?_
        rw [List.nil_append] at hform
        rw [hform]
        exact .head rest ht htop
      | cons b before =>
        obtain ⟨rfl, -⟩ := List.cons.inj hform
        exact .head _ ht htop
    | @expand q d rest hq hqv hd hexp ih =>
      cases before with
      | nil =>
        refine .expand hp hv hc ?_
        rw [List.nil_append] at hform
        rw [hform]
        exact .expand hq hqv hd hexp
      | cons b before =>
        obtain ⟨rfl, hrest⟩ := List.cons.inj hform
        refine .expand hq hqv hd ?_
        have hinner := ih (d.body ++ before) (by simp [← hrest])
        rwa [List.append_assoc] at hinner

theorem Exposes.of_derives {xs ys : List Symbol} (h : g.Derives xs ys) (hys : g.Exposes top ys) :
    g.Exposes top xs := by
  induction h with
  | refl => exact hys
  | head hstep _ ih => exact (ih hys).of_produces hstep

end Grammar

namespace Solver

variable {g : Grammar} {s : State}

section Closed

variable {first follow : Family} (hg : g.WellFormed)
  (hfirst : Solves g.FirstRule g.symbols.symbols true first)

include hg hfirst

theorem nextIn_of_exposes {top : Option Symbol} {xs : List Symbol} (h : g.Exposes top xs)
    {a : Symbol} (htop : ∀ b, top = some b → b = a ∧ a ∈ g.symbols.symbols) :
    NextIn g first (fun t => top = none ∧ t = a) xs a := by
  induction h with
  | nil hnone => exact Or.inr ⟨Family.mem_firstOf_nil.mpr rfl, hnone, rfl⟩
  | head rest ht hsome =>
    obtain ⟨rfl, ha⟩ := htop _ hsome
    exact Or.inl (hfirst.mem_firstOf_terminal hg ha ht rest)
  | @expand p c rest hp hv hc _ ih =>
    exact nextIn_of_produces hg hfirst (.step [] rest hp hv hc) ih

theorem selecting_of_nextIn {p : Production} (hp : p ∈ g.productions) {c : Candidate}
    (hc : c ∈ p.candidates) {bottom : Symbol → Prop} {below : List Symbol} {a : Symbol}
    (hcovered : Covered g first follow bottom (p.left :: below))
    (hnext : NextIn g first bottom (c.body ++ below) a) :
    a ∈ selecting g first follow p.left c := by
  have hbody : ∀ y ∈ first.firstOf g.empty c.body, y ∈ first.firstOf g.empty c := by
    intro y hy
    exact firstOf_of_body hg hfirst (hg.candidate_mem p hp c hc) hy
  rw [nextIn_append] at hnext
  rw [mem_selecting]
  rcases hnext with ⟨ha, hne⟩ | ⟨hnull, hbelow⟩
  · have hbegins := hfirst.begins_string hg ha
    exact Or.inl ⟨hbody a ha, (hbegins.terminal hne).1.not_empty⟩
  · have hleft : p.left ∈ g.nonTerminals := List.mem_map_of_mem hp
    exact Or.inr ⟨hbody _ hnull, hcovered [] p.left below rfl hleft a hbelow⟩

/-- Where a lookahead selects a candidate, the left symbol exposes the lookahead, or it can vanish
and the lookahead follows it. -/
theorem exposes_of_selecting {p : Production} (hp : p ∈ g.productions) (hv : p.left.IsVariable)
    {c : Candidate} (hc : c ∈ p.candidates) {a : Symbol}
    (ha : a ∈ selecting g first follow p.left c) :
    (g.Exposes (some a) [p.left] ∧ a ∈ g.symbols.symbols) ∨
      (g.Exposes none [p.left] ∧ a ∈ follow.get p.left) := by
  have hbody : ∀ x ∈ c.body, x ∈ g.symbols.symbols :=
    fun x hx => hg.candidate_mem p hp c hc x (Candidate.mem_body.mp hx).1
  have hstep : g.Derives [p.left] c.body := .of_candidate hp hv hc
  rcases mem_selecting.mp ha with ⟨ha, hne⟩ | ⟨hnull, ha⟩
  · obtain ⟨ht, rest, hd⟩ := (hfirst.begins_string hg ha).terminal (hg.ne_empty hne)
    refine Or.inl ⟨?_, hd.mem_table hg hbody a List.mem_cons_self⟩
    exact .of_derives (hstep.trans hd) (.head rest ht rfl)
  · have hd := (hfirst.begins_string hg hnull).nullable hg
    exact Or.inr ⟨.of_derives (hstep.trans hd) (.nil rfl), ha⟩

end Closed

section Machine

variable (hg : g.WellFormed) (hv : g.LeftsVariable) (hs : Solved g true s)
  (hconflicts : (tableOf g s).conflicts = [])

include hg hs hconflicts

/-- The machine retraces a leftmost derivation over any stack below. -/
theorem halts_of_exposes {top : Option Symbol} {xs : List Symbol} (h : g.Exposes top xs)
    {a : Symbol} (htop : ∀ b, top = some b → b = a ∧ a ∈ g.symbols.symbols)
    (hcovered : Covered g s.first s.follow (fun t => top = none ∧ t = a) xs)
    {below rest : List Symbol}
    (hmatched : ∀ above, (tableOf g s).Halts g.endMarker ⟨above, rest⟩)
    (hremoved : (tableOf g s).Halts g.endMarker ⟨below, a :: rest⟩) :
    (tableOf g s).Halts g.endMarker ⟨xs ++ below, a :: rest⟩ := by
  induction h with
  | nil => exact hremoved
  | head tail ht hsome =>
    obtain ⟨rfl, -⟩ := htop _ hsome
    exact .consume ht (hmatched _)
  | @expand p c tail hp hvar hc hexp ih =>
    have hstep : g.Produces (p.left :: tail) (c.body ++ tail) := .step [] tail hp hvar hc
    have hnext := nextIn_of_exposes hg hs.first.solves hexp htop
    have hselected := selecting_of_nextIn hg hs.first.solves hp hc hcovered hnext
    have hcell := lookup_of_selecting hconflicts hp hc hselected
    have hrest := ih (hcovered.produces hg hs.first.solves hs.follow hstep)
    rw [List.append_assoc] at hrest
    exact .derive (fun hmatch => hvar.not_terminal hmatch.1) hcell hrest

include hv

theorem halts (k : Configuration) : (tableOf g s).Halts g.endMarker k := by
  refine ParsingTable.halts_of_top (fun x a below rest hmatched hbelow => ?_) k
  rcases (tableOf g s).move_cases g.endMarker ⟨x :: below, a :: rest⟩ with
    ⟨_, _, _, hk, ht, -⟩ | ⟨_, _, c, _, _, hk, -, hcell, -⟩ | ⟨hk, -⟩ | ⟨cause, hmove⟩
  · cases hk
    exact .consume ht (hmatched below)
  · cases hk
    obtain ⟨p, hp, rfl, hc, hselected⟩ := selecting_of_lookup hcell
    rcases exposes_of_selecting hg hs.first.solves hp (hv p hp) hc hselected with
      ⟨hexp, ha⟩ | ⟨hexp, ha⟩
    · have hcovered : Covered g s.first s.follow (fun t => some a = none ∧ t = a) [p.left] :=
        covered_singleton fun _ t ht => nomatch ht.1
      refine halts_of_exposes hg hs hconflicts hexp ?_ hcovered hmatched hbelow
      exact fun b hb => ⟨(Option.some.inj hb).symm, ha⟩
    · have hcovered : Covered g s.first s.follow (fun t => (none : Option Symbol) = none ∧ t = a)
          [p.left] :=
        covered_singleton fun _ t ht => ht.2 ▸ ha
      exact halts_of_exposes hg hs hconflicts hexp nofun hcovered hmatched hbelow
  · cases hk
  · exact ⟨_, .stuck hmove⟩

end Machine

end Solver

end GrammarLab
