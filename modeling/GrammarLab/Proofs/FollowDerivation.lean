import Mathlib
import GrammarLab.Proofs.Follow

/-!
# FOLLOW sets and derivations

If all left symbols are variables, a solution of the FOLLOW rules over exact FIRST sets says exactly
what can stand after a left symbol in a derived form. For the converse direction a form is called
covered when each of its left symbols has in its set all that comes next in the form, or the bottom
where nothing comes; derivation steps keep forms covered.
-/

namespace GrammarLab

/-- What can stand after a left symbol: a terminal in a form derived from some left symbol, or the
end marker at the end of a form derived from the start symbol. -/
def Grammar.Follows (g : Grammar) (b t : Symbol) : Prop :=
  (t.IsTerminal ∧ ∃ l ∈ g.nonTerminals, ∃ before after,
    g.Derives [l] (before ++ b :: t :: after)) ∨
  (t = g.endMarker ∧ ∃ s ∈ g.nonTerminals, g.start = some s ∧ ∃ before,
    g.Derives [s] (before ++ [b]))

def Grammar.LeftsVariable (g : Grammar) : Prop := ∀ p ∈ g.productions, p.left.IsVariable

instance (g : Grammar) : Decidable g.LeftsVariable :=
  inferInstanceAs (Decidable (∀ p ∈ g.productions, p.left.IsVariable))

theorem Grammar.LeftsVariable.of_mem {g : Grammar} (h : g.LeftsVariable) {x : Symbol}
    (hx : x ∈ g.nonTerminals) : x.IsVariable := by
  obtain ⟨p, hp, rfl⟩ := List.mem_map.mp hx
  exact h p hp

namespace Grammar

variable {g : Grammar}

theorem Derives.of_occurrence {p : Production} (hp : p ∈ g.productions) (hv : p.left.IsVariable)
    {before rest : List Symbol} {x : Symbol} (hc : before ++ x :: rest ∈ p.candidates)
    (hx : ¬x.IsEmpty) :
    g.Derives [p.left] (Candidate.body before ++ x :: Candidate.body rest) := by
  have hd := Derives.of_candidate hp hv hc
  rwa [Candidate.body_append, Candidate.body_cons_of_not_empty hx] at hd

theorem Follows.inherit {p : Production} {before : List Symbol} {x y : Symbol}
    (hd : g.Derives [p.left] (before ++ [x])) (h : g.Follows p.left y) : g.Follows x y := by
  rcases h with ⟨ht, l, hl, outer, after, hl'⟩ | ⟨he, s, hs, hstart, outer, hs'⟩
  · refine Or.inl ⟨ht, l, hl, outer ++ before, after, ?_⟩
    have hctx := hd.context outer (y :: after)
    simp only [List.append_assoc, List.singleton_append] at hctx ⊢
    exact hl'.trans hctx
  · refine Or.inr ⟨he, s, hs, hstart, outer ++ before, ?_⟩
    have hctx := hd.context outer []
    simp only [List.append_nil, List.append_assoc] at hctx ⊢
    exact hs'.trans hctx

end Grammar

theorem append_eq_split {α : Type} {us vs before after : List α} {b : α}
    (h : us ++ vs = before ++ b :: after) :
    (∃ mid, us = before ++ b :: mid ∧ after = mid ++ vs) ∨
      ∃ mid, before = us ++ mid ∧ vs = mid ++ b :: after := by
  rcases List.append_eq_append_iff.mp h with ⟨mid, hbefore, hvs⟩ | ⟨mid, hus, hafter⟩
  · exact Or.inr ⟨mid, hbefore, hvs⟩
  · cases mid with
    | nil => exact Or.inr ⟨[], by simpa using hus.symm, by simpa using hafter.symm⟩
    | cons x mid =>
      rw [List.cons_append] at hafter
      obtain ⟨rfl, rfl⟩ := List.cons.inj hafter
      exact Or.inl ⟨mid, hus, rfl⟩

theorem singleton_eq_split {α : Type} {a b : α} {before after : List α}
    (h : [a] = before ++ b :: after) : a = b ∧ before = [] ∧ after = [] := by
  cases before with
  | nil =>
    obtain ⟨hab, hafter⟩ := List.cons.inj h
    exact ⟨hab, rfl, hafter.symm⟩
  | cons c before => simp at h

namespace Solver

variable {g : Grammar} {first follow : Family}

theorem closes_follows (hg : g.WellFormed) (hv : g.LeftsVariable)
    (hfirst : ∀ x y, y ∈ first.get x → g.Begins [x] y) :
    Closes (FollowRule g first true) g.nonTerminals g.Follows := by
  intro f hf x hx y hy
  rcases hy with ⟨hstart, rfl⟩ | ⟨p, hp, c, hc, before, rest, rfl, hrest⟩
  · exact Or.inr ⟨rfl, x, hx, hstart, [], .refl _⟩
  · have hd := Grammar.Derives.of_occurrence hp (hv p hp) hc (hv.of_mem hx).not_empty
    rcases hrest with ⟨hy, hne⟩ | ⟨hnull, hy⟩
    · obtain ⟨ht, tail, htail⟩ := (begins_of_mem_firstOf hg hfirst hy).terminal hne
      refine Or.inl ⟨ht, p.left, List.mem_map_of_mem hp, Candidate.body before, tail, ?_⟩
      have hctx := htail.context (Candidate.body before ++ [x]) []
      simp only [List.append_nil, List.append_assoc, List.singleton_append] at hctx
      exact hd.trans hctx
    · have hvanish := (begins_of_mem_firstOf hg hfirst hnull).nullable hg
      have hctx := hvanish.context (Candidate.body before ++ [x]) []
      simp only [List.append_nil, List.append_assoc, List.singleton_append] at hctx
      exact (hf p.left y hy).inherit (hd.trans hctx)

/-- What comes next after a left symbol whose right context is given: what the context begins with,
or the bottom where the context can vanish. -/
def NextIn (g : Grammar) (first : Family) (bottom : Symbol → Prop) (after : List Symbol)
    (t : Symbol) : Prop :=
  (t ∈ first.firstOf g.empty after ∧ t ≠ g.empty) ∨
    (g.empty ∈ first.firstOf g.empty after ∧ bottom t)

/-- Every left symbol of the form has in its FOLLOW set all that comes next there. -/
def Covered (g : Grammar) (first follow : Family) (bottom : Symbol → Prop) (form : List Symbol) :
    Prop :=
  ∀ before b after, form = before ++ b :: after → b ∈ g.nonTerminals →
    ∀ t, NextIn g first bottom after t → t ∈ follow.get b

theorem nextIn_append {bottom : Symbol → Prop} {us vs : List Symbol} {t : Symbol} :
    NextIn g first bottom (us ++ vs) t ↔
      (t ∈ first.firstOf g.empty us ∧ t ≠ g.empty) ∨
        (g.empty ∈ first.firstOf g.empty us ∧ NextIn g first bottom vs t) := by
  rw [NextIn, NextIn, Family.mem_firstOf_append, Family.mem_firstOf_append]
  tauto

section Closed

variable (hg : g.WellFormed) (hv : g.LeftsVariable)
  (hfirst : Solves g.FirstRule g.symbols.symbols true first)
  (hfollow : Solves (FollowRule g first true) g.nonTerminals true follow)

include hg hfirst hfollow

theorem mem_follow_of_body {p : Production} (hp : p ∈ g.productions) {c : Candidate}
    (hc : c ∈ p.candidates) {before after : List Symbol} {b : Symbol}
    (hbody : c.body = before ++ b :: after) (hb : b ∈ g.nonTerminals) {t : Symbol}
    (ht : NextIn g first (· ∈ follow.get p.left) after t) : t ∈ follow.get b := by
  obtain ⟨us, vs, rfl, -, hvs⟩ := List.filter_eq_append_iff.mp hbody
  obtain ⟨ws, rest, rfl, -, -, hrest⟩ := List.filter_eq_cons_iff.mp hvs
  change Candidate.body rest = after at hrest
  have hmem : ∀ z ∈ rest, z ∈ g.symbols.symbols :=
    fun z hz => hg.candidate_mem p hp _ hc z (by simp [hz])
  have hraw : ∀ y ∈ first.firstOf g.empty after, y ∈ first.firstOf g.empty rest :=
    fun y hy => firstOf_of_body hg hfirst hmem (by rwa [hrest])
  refine hfollow.closed rfl b hb t (Or.inr ⟨p, hp, _, hc, us ++ ws, rest, by simp, ?_⟩)
  exact ht.imp (And.imp_left (hraw t)) (And.imp_left (hraw _))

omit hfollow in
theorem nextIn_of_produces {bottom : Symbol → Prop} {xs ys : List Symbol}
    (h : g.Produces xs ys) {t : Symbol} (ht : NextIn g first bottom ys t) :
    NextIn g first bottom xs t :=
  ht.imp (And.imp_left (firstOf_of_produces hg hfirst h))
    (And.imp_left (firstOf_of_produces hg hfirst h))

/-- A derivation step keeps a form covered. The rewritten symbol passes what comes next to the body
that replaces it. -/
theorem Covered.produces {bottom : Symbol → Prop} {xs ys : List Symbol}
    (hxs : Covered g first follow bottom xs) (h : g.Produces xs ys) :
    Covered g first follow bottom ys := by
  cases h with
  | @step p c outer rest hp hvar hc =>
    have hleft : ∀ t, NextIn g first bottom rest t → t ∈ follow.get p.left :=
      hxs outer p.left rest rfl (List.mem_map_of_mem hp)
    intro before b after hsplit hb t ht
    rw [List.append_assoc] at hsplit
    rcases append_eq_split hsplit with ⟨mid, houter, rfl⟩ | ⟨mid, -, hsplit⟩
    · refine hxs before b (mid ++ p.left :: rest) (by rw [houter]; simp) hb t ?_
      rw [nextIn_append] at ht ⊢
      refine ht.imp_right (And.imp_right fun ht => ?_)
      have hstep := Grammar.Produces.step [] rest hp hvar hc
      simp only [List.nil_append] at hstep
      exact nextIn_of_produces hg hfirst hstep ht
    · rcases append_eq_split hsplit with ⟨inner, hbody, rfl⟩ | ⟨inner, -, hrest⟩
      · refine mem_follow_of_body hg hfirst hfollow hp hc hbody hb ?_
        rw [nextIn_append] at ht
        exact ht.imp_right (And.imp_right (hleft t))
      · exact hxs (outer ++ p.left :: inner) b after (by rw [hrest]; simp) hb t ht

theorem Covered.derives {bottom : Symbol → Prop} {xs ys : List Symbol} (h : g.Derives xs ys)
    (hxs : Covered g first follow bottom xs) : Covered g first follow bottom ys := by
  induction h with
  | refl => exact hxs
  | head hstep _ ih => exact ih (hxs.produces hg hfirst hfollow hstep)

omit hg hfirst hfollow in
theorem covered_singleton {bottom : Symbol → Prop} {l : Symbol}
    (h : l ∈ g.nonTerminals → ∀ t, bottom t → t ∈ follow.get l) :
    Covered g first follow bottom [l] := by
  intro before b after hsplit hb t ht
  obtain ⟨rfl, rfl, rfl⟩ := singleton_eq_split hsplit
  rcases ht with ⟨ht, hne⟩ | ⟨-, ht⟩
  · exact absurd (Family.mem_firstOf_nil.mp ht) hne
  · exact h hb t ht

omit hg hfirst in
theorem covered_start {x : Symbol} (hstart : g.start = some x) :
    Covered g first follow (· = g.endMarker) [x] :=
  covered_singleton fun hx t ht => hfollow.closed rfl x hx t (Or.inl ⟨hstart, ht⟩)

omit hg hfirst hfollow in
theorem Covered.of_append {bottom : Symbol → Prop} (us : List Symbol) {xs : List Symbol}
    (h : Covered g first follow bottom (us ++ xs)) : Covered g first follow bottom xs := by
  intro before b after hsplit
  exact h (us ++ before) b after (by rw [hsplit, List.append_assoc])

theorem mem_follow_of_follows {b t : Symbol} (hb : b ∈ g.nonTerminals) (h : g.Follows b t) :
    t ∈ follow.get b := by
  rcases h with ⟨ht, l, hl, before, after, hd⟩ | ⟨rfl, s, hs, hstart, before, hd⟩
  · have hltable : ∀ z ∈ [l], z ∈ g.symbols.symbols := by
      intro z hz
      obtain ⟨p, hp, rfl⟩ := List.mem_map.mp hl
      exact List.mem_singleton.mp hz ▸ hg.left_mem p hp
    have httable := hd.mem_table hg hltable t (by simp)
    have hcovered : Covered g first follow (fun _ => False) [l] :=
      covered_singleton fun _ _ hfalse => hfalse.elim
    exact hcovered.derives hg hfirst hfollow hd before b (t :: after) rfl hb t
      (Or.inl (hfirst.mem_firstOf_terminal hg httable ht after))
  · have hcovered := covered_start hfollow hstart
    exact hcovered.derives hg hfirst hfollow hd before b [] rfl hb g.endMarker
      (Or.inr ⟨Family.mem_firstOf_nil.mpr rfl, rfl⟩)

include hv in
theorem mem_follow_iff_follows {b t : Symbol} (hb : b ∈ g.nonTerminals) :
    t ∈ follow.get b ↔ g.Follows b t := by
  constructor
  · intro ht
    exact hfollow.least b t ht _ (closes_follows hg hv fun _ _ hy => hfirst.begins hg hy)
  · intro h
    exact mem_follow_of_follows hg hfirst hfollow hb h

end Closed

structure AnswersFollow (g : Grammar) (s : State) : Prop where
  lefts : ∀ b ∈ g.nonTerminals, ∃ found,
    (getFollow b).run s = .ok found s ∧ ∀ t, t ∈ found ↔ g.Follows b t
  others : ∀ b, b ∉ g.nonTerminals → ∃ found,
    (getFollow b).run s = .ok found s ∧ ∀ t, t ∉ found

/-- Iterated passes make FOLLOW exact for derivations, if all left symbols are variables. -/
theorem computeFollow_exact {config : GrammarConfig} {text : String} {g : Grammar}
    (hfix : config.fixpoint = true) (hread : Grammar.read config text = .ok g)
    (hv : g.LeftsVariable) (s : State) :
    ∃ t u, (computeFirst g config.fixpoint).run s = .ok () t ∧
      (computeFollow g config.fixpoint).run t = .ok () u ∧ AnswersFollow g u := by
  have hg := Grammar.wellFormed_of_read hread
  obtain ⟨_, t, hrunFirst, hfirst, -⟩ := ends_computeFirst hg config.fixpoint s
  obtain ⟨_, u, hrunFollow, hsolved, -⟩ := ends_computeFollow hg hfirst
  rw [hfix] at hsolved
  refine ⟨t, u, hrunFirst, hrunFollow, fun b hb => ?_, fun b hb => ?_⟩
  · exact ⟨u.follow.get b, rfl, fun y =>
      mem_follow_iff_follows hg hv hsolved.first.solves hsolved.follow hb⟩
  · exact ⟨u.follow.get b, rfl, fun y hy => hb (hsolved.follow.keyed.mem_of_mem_get hy)⟩

/-- FOLLOW sets that depend on each other in a cycle and look past symbols that can be empty. -/
theorem computeFollow_exact_cycle :
    ∃ g t u, Grammar.read {} "S->aAB\nA->bB|$\nB->cA|$" = .ok g ∧ g.LeftsVariable ∧
      (computeFirst g true).run {} = .ok () t ∧ (computeFollow g true).run t = .ok () u ∧
        AnswersFollow g u := by
  obtain ⟨g, hg, hv⟩ : ∃ g, Grammar.read {} "S->aAB\nA->bB|$\nB->cA|$" = .ok g ∧
      g.LeftsVariable := by decide +kernel
  obtain ⟨t, u, ht, hu, hanswers⟩ := computeFollow_exact rfl hg hv {}
  exact ⟨g, t, u, hg, hv, ht, hu, hanswers⟩

end Solver

end GrammarLab
