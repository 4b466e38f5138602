import GrammarLab.Grammar

/-!
# Derivations

A form is a list of symbols none of which is of the empty kind. One step replaces one occurrence of
a left symbol of the variable kind by the body of one of its candidates. A grammar generates the
forms that its start symbol derives. Derivations go through in any context and can be joined.
Rewriting is the wider relation in which a left symbol of any kind may be replaced.
-/

namespace GrammarLab.Grammar

inductive Produces (g : Grammar) : List Symbol → List Symbol → Prop where
  | step {p : Production} {c : Candidate} (before after : List Symbol) :
      p ∈ g.productions → p.left.IsVariable → c ∈ p.candidates →
        Produces g (before ++ p.left :: after) (before ++ c.body ++ after)

inductive Derives (g : Grammar) : List Symbol → List Symbol → Prop where
  | refl (xs : List Symbol) : Derives g xs xs
  | head {xs ys zs : List Symbol} : Produces g xs ys → Derives g ys zs → Derives g xs zs

/-- Every left symbol may be replaced, whatever its kind. -/
inductive Rewrites (g : Grammar) : List Symbol → List Symbol → Prop where
  | refl (xs : List Symbol) : Rewrites g xs xs
  | head {p : Production} {c : Candidate} {zs : List Symbol} (before after : List Symbol) :
      p ∈ g.productions → c ∈ p.candidates → Rewrites g (before ++ c.body ++ after) zs →
        Rewrites g (before ++ p.left :: after) zs

/-- The start symbol derives the form; a grammar without start symbol generates nothing. -/
def Generates (g : Grammar) (xs : List Symbol) : Prop := ∃ s, g.start = some s ∧ g.Derives [s] xs

theorem Produces.context {g : Grammar} {xs ys : List Symbol} (h : g.Produces xs ys)
    (before after : List Symbol) :
    g.Produces (before ++ xs ++ after) (before ++ ys ++ after) := by
  obtain ⟨inner, outer, hp, hv, hc⟩ := h
  have hstep := Produces.step (before ++ inner) (outer ++ after) hp hv hc
  simpa using hstep

theorem Derives.trans {g : Grammar} {xs ys zs : List Symbol} (h : g.Derives xs ys)
    (k : g.Derives ys zs) : g.Derives xs zs := by
  induction h with
  | refl => exact k
  | head hstep _ ih => exact .head hstep (ih k)

theorem Derives.context {g : Grammar} {xs ys : List Symbol} (h : g.Derives xs ys)
    (before after : List Symbol) : g.Derives (before ++ xs ++ after) (before ++ ys ++ after) := by
  induction h with
  | refl => exact .refl _
  | head hstep _ ih => exact .head (hstep.context before after) ih

theorem Derives.append {g : Grammar} {xs xs' ys ys' : List Symbol} (h : g.Derives xs xs')
    (k : g.Derives ys ys') : g.Derives (xs ++ ys) (xs' ++ ys') := by
  have hleft := h.context [] ys
  have hright := k.context xs' []
  simp only [List.nil_append, List.append_nil] at hleft hright
  exact hleft.trans hright

theorem Derives.of_candidate {g : Grammar} {p : Production} {c : Candidate}
    (hp : p ∈ g.productions) (hv : p.left.IsVariable) (hc : c ∈ p.candidates) :
    g.Derives [p.left] c.body := by
  have hstep := Produces.step [] [] hp hv hc
  simp only [List.nil_append, List.append_nil] at hstep
  exact .head hstep (.refl _)

/-- What the whole of a list derives comes from its two parts. -/
theorem Derives.split {g : Grammar} {xs ys zs : List Symbol} (h : g.Derives (xs ++ ys) zs) :
    ∃ us vs, zs = us ++ vs ∧ g.Derives xs us ∧ g.Derives ys vs := by
  generalize hform : xs ++ ys = form at h
  induction h generalizing xs ys with
  | refl => exact ⟨xs, ys, hform.symm, .refl _, .refl _⟩
  | head hstep _ ih =>
    cases hstep with
    | @step p c before after hp hv hc =>
      rcases List.append_eq_append_iff.mp hform with ⟨mid, hbefore, hys⟩ | ⟨mid, hxs, hafter⟩
      · subst hbefore hys
        obtain ⟨us, vs, hzs, hus, hvs⟩ := @ih xs (mid ++ c.body ++ after) (by simp)
        exact ⟨us, vs, hzs, hus, .head (.step mid after hp hv hc) hvs⟩
      · cases mid with
        | nil =>
          simp only [List.append_nil] at hxs
          simp only [List.nil_append] at hafter
          subst hxs hafter
          obtain ⟨us, vs, hzs, hus, hvs⟩ := @ih xs (c.body ++ after) (by simp)
          exact ⟨us, vs, hzs, hus, .head (.step [] after hp hv hc) (by simpa using hvs)⟩
        | cons y mid =>
          simp only [List.cons_append, List.cons.injEq] at hafter
          obtain ⟨rfl, rfl⟩ := hafter
          subst hxs
          obtain ⟨us, vs, hzs, hus, hvs⟩ := @ih (before ++ c.body ++ mid) ys (by simp)
          exact ⟨us, vs, hzs, .head (.step before mid hp hv hc) hus, hvs⟩

theorem Rewrites.cons {g : Grammar} (x : Symbol) {xs ys : List Symbol} (h : g.Rewrites xs ys) :
    g.Rewrites (x :: xs) (x :: ys) := by
  induction h with
  | refl => exact .refl _
  | head before after hp hc _ ih => exact .head (x :: before) after hp hc ih

theorem Rewrites.trans {g : Grammar} {xs ys zs : List Symbol} (h : g.Rewrites xs ys)
    (k : g.Rewrites ys zs) : g.Rewrites xs zs := by
  induction h with
  | refl => exact k
  | head before after hp hc _ ih => exact .head before after hp hc (ih k)

/-- Where all left symbols are variables, rewriting is derivation. -/
theorem Rewrites.derives {g : Grammar} (hv : ∀ p ∈ g.productions, p.left.IsVariable)
    {xs ys : List Symbol} (h : g.Rewrites xs ys) : g.Derives xs ys := by
  induction h with
  | refl => exact .refl _
  | head before after hp hc _ ih => exact .head (.step before after hp (hv _ hp) hc) ih

end GrammarLab.Grammar
