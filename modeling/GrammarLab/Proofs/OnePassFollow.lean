import Mathlib
import GrammarLab.Proofs.DepthFirst
import GrammarLab.Proofs.Follow

/-!
# FOLLOW by one pass

With one pass an occurrence is judged by its next symbol alone. The sets that this asks for form a
least family, and nothing else is ever computed. A set that is taken over while it is still being
filled may be taken over in part; that needs a cycle through different left symbols. What a set
takes over from itself is no loss.
-/

namespace GrammarLab

namespace Grammar

variable {g : Grammar} {first : Family} {b left y : Symbol}

/-- In a candidate of `left` the left symbol `b` stands last or before a symbol that can be empty,
so all that follows `left` is to follow `b`. -/
def TakesOver (g : Grammar) (first : Family) (b left : Symbol) : Prop :=
  b ∈ g.nonTerminals ∧ ∃ p ∈ g.productions, p.left = left ∧ ∃ c ∈ p.candidates, ∃ before rest,
    c = before ++ b :: rest ∧ ∀ next ∈ rest.head?, g.empty ∈ first.get next

/-- The least family over the left symbols that holds the end marker for the start symbol, the first
symbols of what stands next, and all that is taken over. -/
inductive FollowsByNext (g : Grammar) (first : Family) : Symbol → Symbol → Prop where
  | start {b : Symbol} (hstart : g.start = some b) (hb : b ∈ g.nonTerminals) :
      FollowsByNext g first b g.endMarker
  | next {p : Production} {before rest : Candidate} {b next y : Symbol} (hp : p ∈ g.productions)
      (hc : before ++ b :: next :: rest ∈ p.candidates) (hb : b ∈ g.nonTerminals)
      (hy : y ∈ first.get next) (hne : y ≠ g.empty) : FollowsByNext g first b y
  | takeOver {b left y : Symbol} (htakes : g.TakesOver first b left)
      (hy : FollowsByNext g first left y) : FollowsByNext g first b y

end Grammar

def Family.only (x y : Symbol) : Family := Family.add {} x (.singleton y)

theorem Family.mem_get_only {x y z w : Symbol} : w ∈ (Family.only x y).get z ↔ z = x ∧ w = y := by
  rw [only, mem_get_add, SymbolSet.mem_singleton]
  exact or_iff_right (SymbolSet.not_mem_empty w)

namespace Solver

variable {g : Grammar} {first : Family} {b left x y : Symbol}

theorem mem_firstOf_next {rest : List Symbol} :
    (y ∈ first.firstOf g.empty (ahead false rest) ∧ y ≠ g.empty) ↔
      (∃ next ∈ rest.head?, y ∈ first.get next) ∧ y ≠ g.empty := by
  refine and_congr_left fun hne => ?_
  cases rest with
  | nil => simp [ahead, hne]
  | cons next rest => simp [ahead]

theorem empty_mem_firstOf_next {rest : List Symbol} :
    g.empty ∈ first.firstOf g.empty (ahead false rest) ↔
      ∀ next ∈ rest.head?, g.empty ∈ first.get next := by
  cases rest with
  | nil => simp [ahead]
  | cons next rest => simp [ahead]

theorem takesOver_iff_inherits :
    g.TakesOver first b left ↔ b ∈ g.nonTerminals ∧ Inherits g first false b left := by
  simp only [Grammar.TakesOver, Inherits, empty_mem_firstOf_next]

theorem followRule_only (h : Inherits g first false b left) :
    FollowRule g first false (.only left y) b y := by
  obtain ⟨p, hp, rfl, c, hc, before, rest, hsplit, hempty⟩ := h
  have hmem : y ∈ (Family.only p.left y).get p.left := Family.mem_get_only.mpr ⟨rfl, rfl⟩
  exact Or.inr ⟨p, hp, c, hc, before, rest, hsplit, Or.inr ⟨hempty, hmem⟩⟩

theorem FollowRule.cases {f : Family} (h : FollowRule g first false f b y) :
    FollowRule g first false {} b y ∨
      ∃ left, Inherits g first false b left ∧ y ∈ f.get left := by
  rcases h with hstart | ⟨p, hp, c, hc, before, rest, hsplit, hfirst | ⟨hempty, hy⟩⟩
  · exact Or.inl (Or.inl hstart)
  · exact Or.inl (Or.inr ⟨p, hp, c, hc, before, rest, hsplit, Or.inl hfirst⟩)
  · exact Or.inr ⟨p.left, ⟨p, hp, rfl, c, hc, before, rest, hsplit, hempty⟩, hy⟩

theorem followsByNext_of_rule (hb : b ∈ g.nonTerminals) (h : FollowRule g first false {} b y) :
    g.FollowsByNext first b y := by
  rcases h with ⟨hstart, rfl⟩ | ⟨p, hp, c, hc, before, rest, rfl, hfirst | ⟨-, hy⟩⟩
  · exact .start hstart hb
  · obtain ⟨⟨next, hnext, hy⟩, hne⟩ := mem_firstOf_next.mp hfirst
    obtain ⟨after, rfl⟩ := List.head?_eq_some_iff.mp (Option.mem_def.mp hnext)
    exact .next hp hc hb hy hne
  · exact absurd hy (Family.not_mem_get_nothing p.left y)

theorem closes_followsByNext :
    Closes (FollowRule g first false) g.nonTerminals (g.FollowsByNext first) := by
  intro f hf b hb y hy
  rcases hy.cases with hy | ⟨left, hleft, hy⟩
  · exact followsByNext_of_rule hb hy
  · exact .takeOver (takesOver_iff_inherits.mpr ⟨hb, hleft⟩) (hf left y hy)

theorem least_iff_followsByNext :
    Least (FollowRule g first false) g.nonTerminals b y ↔ g.FollowsByNext first b y := by
  refine ⟨fun h => h _ closes_followsByNext, fun h => ?_⟩
  induction h with
  | start hstart hb => exact least_of_rules hb (Or.inl ⟨hstart, rfl⟩)
  | @next p before rest b next y hp hc hb hy hne =>
    have hfirst : y ∈ first.firstOf g.empty (ahead false (next :: rest)) ∧ y ≠ g.empty :=
      mem_firstOf_next.mpr ⟨⟨next, List.head?_cons, hy⟩, hne⟩
    exact least_of_rules hb (Or.inr ⟨p, hp, _, hc, before, _, rfl, Or.inl hfirst⟩)
  | @takeOver b left y htakes _ ih =>
    obtain ⟨hb, hinherits⟩ := takesOver_iff_inherits.mp htakes
    refine closes_least _ _ _ ?_ b hb y (followRule_only hinherits)
    intro z w hw
    obtain ⟨rfl, rfl⟩ := Family.mem_get_only.mp hw
    exact ih

/-- A left symbol gets along without what it takes over from itself. -/
theorem sufficient_follow : Sufficient (FollowRule g first false) g.nonTerminals
    (Inherits g first false) fun x f =>
      (∀ z y, y ∈ f.get z → Least (FollowRule g first false) g.nonTerminals z y) ∧
        ∀ y, y ∉ f.get x where
  least _ _ hf := hf.1
  loop _ _ _ hf := hf.2
  all x T hT := by
    have hclosed : Closes (FollowRule g first false) g.nonTerminals fun z y =>
        Least (FollowRule g first false) g.nonTerminals z y ∧ (z = x → T y) := by
      intro f hf z hz y hy
      refine ⟨closes_least _ _ f (fun a b hb => (hf a b hb).1) z hz y hy, ?_⟩
      rintro rfl
      rcases hy.cases with hy | ⟨left, hleft, hy⟩
      · exact hT {} ⟨fun a b hb => absurd hb (Family.not_mem_get_nothing a b),
          Family.not_mem_get_nothing z⟩ y hy
      obtain ⟨hleast, hsame⟩ := hf left y hy
      by_cases heq : left = z
      · exact hsame heq
      refine hT (.only left y) ⟨fun a b hb => ?_, fun b hb => ?_⟩ y (followRule_only hleft)
      · obtain ⟨rfl, rfl⟩ := Family.mem_get_only.mp hb
        exact hleast
      · exact heq (Family.mem_get_only.mp hb).1.symm
    exact fun y hy => (hy _ hclosed).2 rfl

section Complete

variable {s : State}
  (hacyclic : ∀ x, ¬Relation.TransGen (fun b left => b ≠ left ∧ g.TakesOver first b left) x x)

include hacyclic

theorem ends_followPass_orderly (hg : g.WellFormed) (hs : FollowInvariant g false first s) :
    Ends (followPass g false) s fun _ t => FollowInvariant g false first t ∧
      Orderly (FollowRule g first false) g.nonTerminals State.follow [] t := by
  have hcycle : ∀ x, ¬DependsOn g.nonTerminals (Inherits g first false) x x :=
    fun x hx => hacyclic x (Relation.TransGen.mono
      (fun _ _ hstep => ⟨hstep.2.1, takesOver_iff_inherits.mpr ⟨hstep.1, hstep.2.2⟩⟩) _ _ hx)
  have hreaders : ∀ x ∈ g.nonTerminals, ∀ y, Inherits g first false x y → x ∈ g.nonTerminals :=
    fun x hx _ _ => hx
  have hlefts : ∀ p ∈ g.productions, p.left ∈ g.nonTerminals :=
    fun p hp => List.mem_map_of_mem hp
  rw [followPass, expandFollow_eq]
  refine ends_bind_modify ?_
  exact ends_forM_orderly (visits_follow hg false first) sufficient_follow hreaders hcycle hlefts
    (length_nonTerminals_lt_depthLimit g) ⟨hs.mark [], .cleared rfl⟩

theorem ends_computeFollow_complete (hg : g.WellFormed) (hs : FirstSolved g false s)
    (hfirst : s.first = first) :
    Ends (computeFollow g false) s fun _ t =>
      ∀ b y, g.FollowsByNext first b y → y ∈ t.follow.get b := by
  subst hfirst
  refine ends_bind_modify ?_
  have hbegin := hs.followInvariant
  apply ((ends_followPass hg hbegin).and (ends_followPass_orderly hacyclic hg hbegin)).imp
  intro _ t hpost b y hy
  obtain ⟨⟨-, -, hmarked⟩, -, horderly⟩ := hpost
  have hleast := least_iff_followsByNext.mpr hy
  exact horderly.finished b (hmarked b hleast.mem_keys) List.not_mem_nil y hleast

end Complete

/-- One pass computes at most the least family that looking at the next symbols asks for, and all of
it where left symbols take over from each other without a cycle. -/
theorem computeFollow_onePass {config : GrammarConfig} {text : String} {g : Grammar}
    (hread : Grammar.read config text = .ok g) (s : State) :
    ∃ t u, (computeFirst g false).run s = .ok () t ∧ (computeFollow g false).run t = .ok () u ∧
      ∀ b, ∃ found, (getFollow b).run u = .ok found u ∧
        (∀ y ∈ found, g.FollowsByNext t.first b y) ∧
        ((∀ x, ¬Relation.TransGen (fun b left => b ≠ left ∧ g.TakesOver t.first b left) x x) →
          ∀ y, y ∈ found ↔ g.FollowsByNext t.first b y) := by
  have hg := Grammar.wellFormed_of_read hread
  obtain ⟨_, t, hrunFirst, hfirst, -⟩ := ends_computeFirst hg false s
  obtain ⟨_, u, hrunFollow, hsolved, hsame⟩ := ends_computeFollow hg hfirst
  have hwithin : ∀ b y, y ∈ u.follow.get b → g.FollowsByNext t.first b y := by
    intro b y hy
    rw [← hsame]
    exact least_iff_followsByNext.mp (hsolved.follow.least b y hy)
  refine ⟨t, u, hrunFirst, hrunFollow, fun b => ⟨u.follow.get b, rfl, hwithin b, ?_⟩⟩
  intro hacyclic y
  obtain ⟨_, _, hagain, hcomplete⟩ := ends_computeFollow_complete hacyclic hg hfirst rfl
  obtain ⟨-, rfl⟩ := EStateM.Result.ok.inj (hrunFollow.symm.trans hagain)
  exact ⟨hwithin b y, hcomplete b y⟩

/-- `S` and `A` take over from themselves, `A` also from `S` and `B` from `A`. -/
theorem computeFollow_onePass_loops :
    ∃ g t u, Grammar.read {} "S->aAS|$\nA->bA|Bc|dB\nB->$" = .ok g ∧
      (computeFirst g false).run {} = .ok () t ∧ (computeFollow g false).run t = .ok () u ∧
      (∀ x, ¬Relation.TransGen (fun b left => b ≠ left ∧ g.TakesOver t.first b left) x x) ∧
      ∀ b, ∃ found, (getFollow b).run u = .ok found u ∧
        ∀ y, y ∈ found ↔ g.FollowsByNext t.first b y := by
  let rank : Symbol → Nat := fun x => if x.text = "S" then 0 else if x.text = "A" then 1 else 2
  obtain ⟨g, hg, _, t, ht, hfalls⟩ :
      ∃ g, Grammar.read {} "S->aAS|$\nA->bA|Bc|dB\nB->$" = .ok g ∧
      Ends (computeFirst g false) {} fun _ t => ∀ p ∈ g.productions, ∀ c ∈ p.candidates,
        ∀ tail ∈ c.tails, ∀ b ∈ tail.head?, b ∈ g.nonTerminals → b ≠ p.left →
          (∀ next ∈ tail.tail.head?, g.empty ∈ t.first.get next) → rank p.left < rank b := by
    decide +kernel
  obtain ⟨v, u, hv, hu, hanswers⟩ := computeFollow_onePass hg {}
  obtain ⟨-, rfl⟩ := EStateM.Result.ok.inj (ht.symm.trans hv)
  have hacyclic : ∀ x, ¬Relation.TransGen
      (fun b left => b ≠ left ∧ g.TakesOver t.first b left) x x := by
    refine not_transGen_of_rank rank ?_
    rintro b left ⟨hne, hb, p, hp, rfl, c, hc, before, rest, rfl, hempty⟩
    have htail : b :: rest ∈ (before ++ b :: rest).tails :=
      (List.mem_tails _ _).mpr (List.suffix_append before (b :: rest))
    exact hfalls p hp _ hc _ htail b rfl hb hne hempty
  refine ⟨g, t, u, hg, ht, hu, hacyclic, fun b => ?_⟩
  obtain ⟨found, hfound, -, hexact⟩ := hanswers b
  exact ⟨found, hfound, hexact hacyclic⟩

end Solver

end GrammarLab
