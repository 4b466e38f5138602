import Mathlib
import GrammarLab.Proofs.FirstDerivation
import GrammarLab.Solver.Follow

/-!
# The FOLLOW solver

The rules of FOLLOW: the start symbol is followed by the end marker, and every occurrence of a left
symbol by what the rest of its candidate begins with and, where that can be empty, by all that
follows the left symbol of the candidate. With one pass only, the rest is judged by its next symbol.
FIRST sets stay as they are while FOLLOW is computed.
-/

namespace GrammarLab

namespace Solver

def ahead (fixpoint : Bool) (rest : List Symbol) : List Symbol :=
  if fixpoint then rest else rest.take 1

/-- What an occurrence contributes whose rest is given, in a candidate of `left`. -/
def RestRule (g : Grammar) (first : Family) (fixpoint : Bool) (left : Symbol) (rest : List Symbol)
    (f : Family) (y : Symbol) : Prop :=
  (y ∈ first.firstOf g.empty (ahead fixpoint rest) ∧ y ≠ g.empty) ∨
    (g.empty ∈ first.firstOf g.empty (ahead fixpoint rest) ∧ y ∈ f.get left)

def OccurrenceRule (g : Grammar) (first : Family) (fixpoint : Bool) (left : Symbol) (c : Candidate)
    (f : Family) (x y : Symbol) : Prop :=
  ∃ before rest, c = before ++ x :: rest ∧ RestRule g first fixpoint left rest f y

/-- What the FOLLOW set of `x` must hold, given the FIRST sets and the FOLLOW sets of a family. -/
def FollowRule (g : Grammar) (first : Family) (fixpoint : Bool) (f : Family) (x y : Symbol) :
    Prop :=
  (g.start = some x ∧ y = g.endMarker) ∨
    ∃ p ∈ g.productions, ∃ c ∈ p.candidates, OccurrenceRule g first fixpoint p.left c f x y

/-- `x` stands in a candidate of `left` before what can vanish, as far as it is looked at. -/
def Inherits (g : Grammar) (first : Family) (fixpoint : Bool) (x left : Symbol) : Prop :=
  ∃ p ∈ g.productions, p.left = left ∧ ∃ c ∈ p.candidates, ∃ before rest,
    c = before ++ x :: rest ∧ g.empty ∈ first.firstOf g.empty (ahead fixpoint rest)

section Rules

variable {g : Grammar} {first f h : Family} {fixpoint : Bool} {left x y : Symbol}

theorem RestRule.mono {rest : List Symbol} (hle : f.Le h)
    (hy : RestRule g first fixpoint left rest f y) : RestRule g first fixpoint left rest h y := by
  rcases hy with hy | ⟨he, hmem⟩
  · exact Or.inl hy
  · exact Or.inr ⟨he, hle _ _ hmem⟩

theorem OccurrenceRule.mono {c : Candidate} (hle : f.Le h)
    (hy : OccurrenceRule g first fixpoint left c f x y) :
    OccurrenceRule g first fixpoint left c h x y := by
  obtain ⟨before, rest, hc, hrest⟩ := hy
  exact ⟨before, rest, hc, hrest.mono hle⟩

theorem occurrenceRule_cons {item : Symbol} {rest : Candidate} :
    OccurrenceRule g first fixpoint left (item :: rest) f x y ↔
      (item = x ∧ RestRule g first fixpoint left rest f y) ∨
        OccurrenceRule g first fixpoint left rest f x y := by
  constructor
  · intro hy
    obtain ⟨before, after, hsplit, hy⟩ := hy
    cases before with
    | nil =>
      obtain ⟨rfl, rfl⟩ := List.cons.inj hsplit
      exact Or.inl ⟨rfl, hy⟩
    | cons z before =>
      obtain ⟨-, rfl⟩ := List.cons.inj hsplit
      exact Or.inr ⟨before, after, rfl, hy⟩
  · intro hy
    rcases hy with ⟨rfl, hy⟩ | ⟨before, after, rfl, hy⟩
    · exact ⟨[], rest, rfl, hy⟩
    · exact ⟨item :: before, after, rfl, hy⟩

theorem followRule_monotone (g : Grammar) (first : Family) (fixpoint : Bool) :
    Monotone (FollowRule g first fixpoint) := by
  intro f h hle x y hy
  rcases hy with hstart | ⟨p, hp, c, hc, hy⟩
  · exact Or.inl hstart
  · exact Or.inr ⟨p, hp, c, hc, hy.mono hle⟩

theorem closes_follow_table (hg : g.WellFormed)
    (hfirst : ∀ x y, y ∈ first.get x → y ∈ g.symbols.symbols) :
    Closes (FollowRule g first fixpoint) g.nonTerminals fun _ y => y ∈ g.symbols.symbols := by
  intro f hf x _ y hy
  rcases hy with ⟨-, rfl⟩ | ⟨p, -, c, -, before, rest, -, hrest⟩
  · exact hg.end_mem
  · rcases hrest with ⟨hy, -⟩ | ⟨-, hy⟩
    · exact mem_table_of_mem_firstOf hg hfirst hy
    · exact hf _ _ hy

end Rules

/-- The invariant of FOLLOW passes over fixed FIRST sets. -/
structure FollowInvariant (g : Grammar) (fixpoint : Bool) (first : Family) (s : State) : Prop where
  keyed : s.follow.Over g.nonTerminals
  least : ∀ x y, y ∈ s.follow.get x → Least (FollowRule g first fixpoint) g.nonTerminals x y
  solved : FirstSolved g fixpoint s
  first_eq : s.first = first

abbrev FollowAdmits (g : Grammar) (fixpoint : Bool) (first : Family) (x : Symbol)
    (rule : Family → Symbol → Prop) : Prop :=
  Admits (FollowRule g first fixpoint) g.nonTerminals x rule

abbrev FollowExpands (g : Grammar) (fixpoint : Bool) (first : Family) (s t : State) : Prop :=
  Expands (FollowRule g first fixpoint) State.follow s t

abbrev FollowGives (g : Grammar) (fixpoint : Bool) (first : Family) :=
  Gives (FollowRule g first fixpoint) State.follow

section Pass

variable {g : Grammar} {fixpoint : Bool} {first : Family} {s : State} {x left : Symbol}
  {I : State → Prop} {F : Family → Prop}

theorem FollowInvariant.mark (h : FollowInvariant g fixpoint first s) (marks : List Symbol) :
    FollowInvariant g fixpoint first { s with marked := marks } :=
  ⟨h.keyed, h.least, ⟨h.solved.solves, h.solved.remembers⟩, h.first_eq⟩

theorem gives_addFollow (hI : Refines State.follow (FollowInvariant g fixpoint first) I) (h : I s)
    (hx : x ∈ g.nonTerminals) {found : SymbolSet}
    (hfound : ∀ y ∈ found, Least (FollowRule g first fixpoint) g.nonTerminals x y) :
    FollowGives g fixpoint first I F x (fun _ y => y ∈ found) (addFollow x found) s := by
  have hs := hI.sound h
  have hle := Family.le_add s.follow x found
  have hadded : FollowInvariant g fixpoint first { s with follow := s.follow.add x found } := by
    refine ⟨hs.keyed.add hx found, fun z y hy => ?_, ⟨hs.solved.solves, hs.solved.remembers⟩,
      hs.first_eq⟩
    rcases Family.mem_get_add.mp hy with hy | ⟨hz, hy⟩
    · exact hs.least z y hy
    · exact hz ▸ hfound y hy
  refine ends_modify ⟨hI.grown h hadded hle rfl, .of_le hle rfl, fun _ _ y hy => ?_⟩
  exact Family.mem_get_add.mpr (Or.inr ⟨rfl, hy⟩)

theorem ends_askAhead (hI : Refines State.follow (FollowInvariant g fixpoint first) I) (h : I s)
    {next : Symbol} {rest : List Symbol} (hrest : ∀ z ∈ next :: rest, z ∈ g.symbols.symbols) :
    Ends (if fixpoint then firstOfString g (next :: rest) else getFirst g next) s fun found t =>
      (∀ y, y ∈ found ↔ y ∈ first.firstOf g.empty (ahead fixpoint (next :: rest))) ∧
        I t ∧ FollowExpands g fixpoint first s t := by
  have hs := hI.sound h
  cases fixpoint with
  | true =>
    refine (hs.solved.ends_firstOfString hrest).imp ?_
    intro _ _ hpost
    obtain ⟨rfl, hsolved, known, rfl⟩ := hpost
    have hasked : FollowInvariant g true first { s with known } :=
      ⟨hs.keyed, hs.least, hsolved, hs.first_eq⟩
    refine ⟨fun y => ?_, hI.grown h hasked (.refl _) rfl, .of_le (.refl _) rfl⟩
    rw [hs.first_eq]
    rfl
  | false =>
    refine (ends_getFirst hs.solved.solves.keyed (hrest next List.mem_cons_self)).imp ?_
    intro _ _ hpost
    obtain ⟨rfl, rfl⟩ := hpost
    refine ⟨fun y => ?_, h, .refl s⟩
    rw [hs.first_eq]
    exact Family.mem_firstOf_singleton.symm

theorem mem_firstOf_ahead_terminal (hg : g.WellFormed) (hs : FollowInvariant g fixpoint first s)
    {next : Symbol} (hterm : next.IsTerminal) (hnext : next ∈ g.symbols.symbols)
    (rest : List Symbol) (y : Symbol) :
    y ∈ first.firstOf g.empty (ahead fixpoint (next :: rest)) ↔ y = next := by
  obtain ⟨tail, htail⟩ : ∃ tail, ahead fixpoint (next :: rest) = next :: tail := by
    cases fixpoint
    · exact ⟨[], rfl⟩
    · exact ⟨rest, rfl⟩
  have hget : ∀ z, z ∈ first.get next ↔ z = next := by
    intro z
    rw [← hs.first_eq]
    exact hs.solved.solves.mem_get_terminal hg hnext hterm
  have hne := hg.ne_empty hterm.not_empty
  rw [htail, Family.mem_firstOf_cons, hget, hget]
  constructor
  · rintro (⟨hy, -⟩ | ⟨he, -⟩)
    · exact hy
    · exact absurd he.symm hne
  · rintro rfl
    exact Or.inl ⟨rfl, hne⟩

theorem absorbRest_of_not_terminal {expand : Symbol → Compute Unit} {next : Symbol}
    (h : ¬next.IsTerminal) {rest : List Symbol} :
    absorbRest g fixpoint expand x left (next :: rest) =
      (if fixpoint then firstOfString g (next :: rest) else getFirst g next) >>= fun found =>
        addFollow x (found.erase g.empty) >>= fun _ =>
          if g.empty ∈ found then inheritFollow expand x left else pure () := by
  rw [absorbRest, if_neg h]
  cases fixpoint <;> rfl

theorem absorbFollow_cons {expand : Symbol → Compute Unit} {item : Symbol} {rest : Candidate} :
    absorbFollow g fixpoint expand x left (item :: rest) =
      (if item = x then absorbRest g fixpoint expand x left rest else pure ()) >>= fun _ =>
        absorbFollow g fixpoint expand x left rest := by
  rw [absorbFollow]
  split <;> rfl

section Occurrences

variable {expand : Symbol → Compute Unit}
  (hI : Refines State.follow (FollowInvariant g fixpoint first) I) (hx : x ∈ g.nonTerminals)

include hI hx

theorem gives_inheritFollow
    (hown : ∀ s, I s →
      GivesOwn (FollowRule g first fixpoint) State.follow I F left (expand left) s) (hs : I s)
    (hadmits : FollowAdmits g fixpoint first x fun f y => y ∈ f.get left) :
    FollowGives g fixpoint first I F x (fun f y => y ∈ f.get left)
      (inheritFollow expand x left) s := by
  apply Ends.bind (hown s hs)
  intro _ t hpost
  obtain ⟨ht, hst, hgiven⟩ := hpost
  apply Gives.after (followRule_monotone g first fixpoint) hst
  refine ends_bind_get ?_
  exact (gives_addFollow hI ht hx (hadmits t.follow (hI.sound ht).least)).imp hgiven

theorem gives_absorbRest_terminal (hg : g.WellFormed) (hs : I s) {next : Symbol}
    {rest : List Symbol} (hterm : next.IsTerminal) (hnext : next ∈ g.symbols.symbols)
    (hadmits : FollowAdmits g fixpoint first x (RestRule g first fixpoint left (next :: rest))) :
    FollowGives g fixpoint first I F x (RestRule g first fixpoint left (next :: rest))
      (absorbRest g fixpoint expand x left (next :: rest)) s := by
  have hahead := mem_firstOf_ahead_terminal hg (hI.sound hs) hterm hnext rest
  have hne := hg.ne_empty hterm.not_empty
  have hsound : ∀ y ∈ SymbolSet.singleton next,
      Least (FollowRule g first fixpoint) g.nonTerminals x y := by
    intro y hy
    obtain rfl := SymbolSet.mem_singleton.mp hy
    exact hadmits s.follow (hI.sound hs).least y (Or.inl ⟨(hahead y).mpr rfl, hne⟩)
  rw [absorbRest, if_pos hterm]
  apply (gives_addFollow hI hs hx hsound).imp
  rintro f - y (⟨hy, -⟩ | ⟨he, -⟩)
  · exact SymbolSet.mem_singleton.mpr ((hahead y).mp hy)
  · exact absurd ((hahead g.empty).mp he).symm hne

theorem gives_absorbRest_other (hs : I s) {next : Symbol} {rest : List Symbol}
    (hterm : ¬next.IsTerminal) (hrest : ∀ z ∈ next :: rest, z ∈ g.symbols.symbols)
    (hown : g.empty ∈ first.firstOf g.empty (ahead fixpoint (next :: rest)) → ∀ s, I s →
      GivesOwn (FollowRule g first fixpoint) State.follow I F left (expand left) s)
    (hadmits : FollowAdmits g fixpoint first x (RestRule g first fixpoint left (next :: rest))) :
    FollowGives g fixpoint first I F x (RestRule g first fixpoint left (next :: rest))
      (absorbRest g fixpoint expand x left (next :: rest)) s := by
  have hmono := followRule_monotone g first fixpoint
  rw [absorbRest_of_not_terminal hterm]
  apply (ends_askAhead hI hs hrest).bind
  intro found t hpost
  obtain ⟨hfound, ht, hst⟩ := hpost
  apply Gives.after hmono hst
  have hsound : ∀ y ∈ found.erase g.empty,
      Least (FollowRule g first fixpoint) g.nonTerminals x y := by
    intro y hy
    obtain ⟨hy, hne⟩ := SymbolSet.mem_erase.mp hy
    exact hadmits t.follow (hI.sound ht).least y (Or.inl ⟨(hfound y).mp hy, hne⟩)
  have hinherited : ∀ u, I u → FollowExpands g fixpoint first t u →
      FollowGives g fixpoint first I F x (fun f y => g.empty ∈ found ∧ y ∈ f.get left)
        (if g.empty ∈ found then inheritFollow expand x left else pure ()) u := by
    intro u hu _
    split
    · next hempty =>
      have hadmitsLeft : FollowAdmits g fixpoint first x fun f y => y ∈ f.get left :=
        hadmits.imp fun f y hy => Or.inr ⟨(hfound _).mp hempty, hy⟩
      exact (gives_inheritFollow hI hx (hown ((hfound _).mp hempty)) hu hadmitsLeft).imp
        fun f _ y hy => hy.2
    · next hempty => exact gives_pure hu fun f _ y hy => hempty hy.1
  apply ((gives_addFollow hI ht hx hsound).bind hmono hinherited).imp
  rintro f - y (⟨hy, hne⟩ | ⟨he, hy⟩)
  · exact Or.inl (SymbolSet.mem_erase.mpr ⟨(hfound y).mpr hy, hne⟩)
  · exact Or.inr ⟨(hfound _).mpr he, hy⟩

theorem gives_absorbRest (hg : g.WellFormed) (hs : I s) {rest : List Symbol}
    (hrest : ∀ z ∈ rest, z ∈ g.symbols.symbols)
    (hown : g.empty ∈ first.firstOf g.empty (ahead fixpoint rest) → ∀ s, I s →
      GivesOwn (FollowRule g first fixpoint) State.follow I F left (expand left) s)
    (hadmits : FollowAdmits g fixpoint first x (RestRule g first fixpoint left rest)) :
    FollowGives g fixpoint first I F x (RestRule g first fixpoint left rest)
      (absorbRest g fixpoint expand x left rest) s := by
  cases rest with
  | nil =>
    have hahead : ahead fixpoint [] = [] := by cases fixpoint <;> rfl
    have hempty : g.empty ∈ first.firstOf g.empty (ahead fixpoint []) :=
      hahead.symm ▸ Family.mem_firstOf_nil.mpr rfl
    have hadmitsLeft : FollowAdmits g fixpoint first x fun f y => y ∈ f.get left :=
      hadmits.imp fun f y hy => Or.inr ⟨hempty, hy⟩
    apply (gives_inheritFollow hI hx (hown hempty) hs hadmitsLeft).imp
    rintro f - y (⟨hy, hne⟩ | ⟨-, hy⟩)
    · rw [hahead] at hy
      exact absurd (Family.mem_firstOf_nil.mp hy) hne
    · exact hy
  | cons next rest =>
    by_cases hterm : next.IsTerminal
    · exact gives_absorbRest_terminal hI hx hg hs hterm (hrest next List.mem_cons_self) hadmits
    · exact gives_absorbRest_other hI hx hs hterm hrest hown hadmits

/-- All occurrences in a candidate, by induction on what is left of it. -/
theorem gives_absorbFollow (hg : g.WellFormed) (hs : I s) {c : Candidate}
    (hc : ∀ z ∈ c, z ∈ g.symbols.symbols)
    (hown : ∀ before rest, c = before ++ x :: rest →
      g.empty ∈ first.firstOf g.empty (ahead fixpoint rest) → ∀ s, I s →
        GivesOwn (FollowRule g first fixpoint) State.follow I F left (expand left) s)
    (hadmits : FollowAdmits g fixpoint first x fun f y =>
      OccurrenceRule g first fixpoint left c f x y) :
    FollowGives g fixpoint first I F x (fun f y => OccurrenceRule g first fixpoint left c f x y)
      (absorbFollow g fixpoint expand x left c) s := by
  have hmono := followRule_monotone g first fixpoint
  induction c generalizing s with
  | nil =>
    apply gives_pure hs
    rintro f - y ⟨before, rest, hsplit, -⟩
    exact absurd hsplit (by simp)
  | cons item rest ih =>
    have hrest : ∀ z ∈ rest, z ∈ g.symbols.symbols :=
      fun z hz => hc z (List.mem_cons_of_mem _ hz)
    have hhere : FollowGives g fixpoint first I F x
        (fun f y => item = x ∧ RestRule g first fixpoint left rest f y)
        (if item = x then absorbRest g fixpoint expand x left rest else pure ()) s := by
      split
      · next hitem =>
        have hadmitsRest : FollowAdmits g fixpoint first x (RestRule g first fixpoint left rest) :=
          hadmits.imp fun f y hy => occurrenceRule_cons.mpr (Or.inl ⟨hitem, hy⟩)
        have hsplit : item :: rest = [] ++ x :: rest := congrArg (· :: rest) hitem
        exact (gives_absorbRest hI hx hg hs hrest (hown [] rest hsplit) hadmitsRest).imp
          fun f _ y hy => hy.2
      · next hitem => exact gives_pure hs fun f _ y hy => hitem hy.1
    have hadmitsLater : FollowAdmits g fixpoint first x fun f y =>
        OccurrenceRule g first fixpoint left rest f x y :=
      hadmits.imp fun f y hy => occurrenceRule_cons.mpr (Or.inr hy)
    have hownLater : ∀ before after, rest = before ++ x :: after →
        g.empty ∈ first.firstOf g.empty (ahead fixpoint after) → ∀ s, I s →
          GivesOwn (FollowRule g first fixpoint) State.follow I F left (expand left) s :=
      fun before after hsplit => hown (item :: before) after (congrArg (item :: ·) hsplit)
    rw [absorbFollow_cons]
    apply (hhere.bind hmono fun t ht _ => ih ht hrest hownLater hadmitsLater).imp
    exact fun f _ y hy => occurrenceRule_cons.mp hy

theorem gives_absorbFollows (hg : g.WellFormed)
    (hown : ∀ left, Inherits g first fixpoint x left → ∀ s, I s →
      GivesOwn (FollowRule g first fixpoint) State.follow I F left (expand left) s) (hs : I s) :
    FollowGives g fixpoint first I F x
      (fun f y => ∃ p ∈ g.productions, ∃ c ∈ p.candidates,
        OccurrenceRule g first fixpoint p.left c f x y)
      (g.productions.forM fun p => p.candidates.forM fun c =>
        absorbFollow g fixpoint expand x p.left c) s := by
  have hmono := followRule_monotone g first fixpoint
  apply Gives.forM hmono _ hs
  intro p hp s hs
  apply Gives.forM hmono _ hs
  intro c hc s hs
  have hadmits : FollowAdmits g fixpoint first x fun f y =>
      OccurrenceRule g first fixpoint p.left c f x y :=
    (admits_rules hx).imp fun f y hy => Or.inr ⟨p, hp, c, hc, hy⟩
  apply gives_absorbFollow hI hx hg hs (hg.candidate_mem p hp c hc) _ hadmits
  intro before rest hsplit hvanishes
  exact hown p.left ⟨p, hp, rfl, c, hc, before, rest, hsplit, hvanishes⟩

end Occurrences

def visitFollow (g : Grammar) (fixpoint : Bool) (expand : Symbol → Compute Unit) (x : Symbol) :
    Compute Unit := do
  addFollow x (if g.start = some x then .singleton g.endMarker else ∅)
  g.productions.forM fun p => p.candidates.forM fun c =>
    absorbFollow g fixpoint expand x p.left c

theorem expandFollow_eq (g : Grammar) (fixpoint : Bool) :
    expandFollow g fixpoint = guarded (visitFollow g fixpoint) := by
  funext depth
  induction depth with
  | zero => rfl
  | succ depth ih =>
    funext x
    rw [guarded, ← ih]
    rfl

theorem gives_visitFollow (hg : g.WellFormed)
    (hI : Refines State.follow (FollowInvariant g fixpoint first) I)
    {expand : Symbol → Compute Unit} (hx : x ∈ g.nonTerminals)
    (hown : ∀ left, Inherits g first fixpoint x left → ∀ s, I s →
      GivesOwn (FollowRule g first fixpoint) State.follow I F left (expand left) s) (hs : I s) :
    FollowGives g fixpoint first I F x (fun f y => FollowRule g first fixpoint f x y)
      (visitFollow g fixpoint expand x) s := by
  have hsound : ∀ y ∈ if g.start = some x then SymbolSet.singleton g.endMarker else ∅,
      Least (FollowRule g first fixpoint) g.nonTerminals x y := by
    intro y hy
    split at hy
    · next hstart =>
      exact closes_least _ _ _ (hI.sound hs).least x hx y
        (Or.inl ⟨hstart, SymbolSet.mem_singleton.mp hy⟩)
    · exact absurd hy (SymbolSet.not_mem_empty y)
  apply ((gives_addFollow hI hs hx hsound).bind (followRule_monotone g first fixpoint)
    fun t ht _ => gives_absorbFollows hI hx hg hown ht).imp
  rintro f - y (⟨hstart, rfl⟩ | hy)
  · rw [if_pos hstart]
    exact Or.inl (SymbolSet.mem_singleton.mpr rfl)
  · exact Or.inr hy

theorem Inherits.left_mem (h : Inherits g first fixpoint x left) : left ∈ g.nonTerminals := by
  obtain ⟨p, hp, rfl, -⟩ := h
  exact List.mem_map_of_mem hp

theorem visits_follow (hg : g.WellFormed) (fixpoint : Bool) (first : Family) :
    Visits (FollowRule g first fixpoint) g.nonTerminals State.follow
      (FollowInvariant g fixpoint first) (Inherits g first fixpoint) (visitFollow g fixpoint) where
  field_mark _ _ := rfl
  mark _ marks hs := hs.mark marks
  reads_mem _ _ hleft := hleft.left_mem
  gives hI hx hown hs := gives_visitFollow hg hI hx hown hs

theorem ends_expandFollow (hg : g.WellFormed) (depth : Nat) (hx : x ∈ g.nonTerminals)
    (hs : FollowInvariant g fixpoint first s) :
    Ends (expandFollow g fixpoint depth x) s fun _ t =>
      FollowInvariant g fixpoint first t ∧ FollowExpands g fixpoint first s t ∧
        (0 < depth → x ∈ t.marked) := by
  rw [expandFollow_eq]
  exact (visits_follow hg fixpoint first).ends_guarded depth hx hs

theorem ends_followPass (hg : g.WellFormed) (hs : FollowInvariant g fixpoint first s) :
    Ends (followPass g fixpoint) s fun _ t => FollowInvariant g fixpoint first t ∧
      FollowExpands g fixpoint first { s with marked := [] } t ∧
        ∀ x ∈ g.nonTerminals, x ∈ t.marked := by
  refine ends_bind_modify ?_
  have hmono := followRule_monotone g first fixpoint
  have hlefts : ∀ p ∈ g.productions, ∀ s, FollowInvariant g fixpoint first s →
      Ends (expandFollow g fixpoint (depthLimit g) p.left) s fun _ t =>
        FollowInvariant g fixpoint first t ∧ FollowExpands g fixpoint first s t ∧
          p.left ∈ t.marked := by
    intro p hp s hs
    exact (ends_expandFollow hg _ (List.mem_map_of_mem hp) hs).imp fun _ t h =>
      ⟨h.1, h.2.1, h.2.2 (Nat.succ_pos _)⟩
  apply (Expands.forM_marked hmono hlefts (hs.mark [])).imp
  intro _ t hpost
  obtain ⟨ht, hst, hmarks⟩ := hpost
  refine ⟨ht, hst, fun x hx => ?_⟩
  obtain ⟨p, hp, rfl⟩ := List.mem_map.mp hx
  exact hmarks p hp

end Pass

structure Solved (g : Grammar) (fixpoint : Bool) (s : State) : Prop where
  first : FirstSolved g fixpoint s
  follow : Solves (FollowRule g s.first fixpoint) g.nonTerminals fixpoint s.follow

theorem FirstSolved.followInvariant {g : Grammar} {fixpoint : Bool} {s : State}
    (hs : FirstSolved g fixpoint s) :
    FollowInvariant g fixpoint s.first { s with follow := .blank g.nonTerminals } :=
  ⟨Family.over_blank _, fun x y hy => absurd hy (Family.not_mem_get_blank x y),
    ⟨hs.solves, hs.remembers⟩, rfl⟩

theorem length_nonTerminals_le {g : Grammar} (hg : g.WellFormed) :
    g.nonTerminals.length ≤ g.symbols.size := by
  refine (hg.lefts_nodup.subperm fun x hx => ?_).length_le
  obtain ⟨p, hp, rfl⟩ := List.mem_map.mp hx
  exact hg.left_mem p hp

theorem ends_computeFollow {g : Grammar} (hg : g.WellFormed) {fixpoint : Bool} {s : State}
    (hs : FirstSolved g fixpoint s) :
    Ends (computeFollow g fixpoint) s fun _ t => Solved g fixpoint t ∧ t.first = s.first := by
  have hfirst : ∀ x y, y ∈ s.first.get x → y ∈ g.symbols.symbols :=
    fun x y hy => hs.solves.least x y hy _ (closes_table hg)
  have hlimit : g.nonTerminals.length * g.symbols.symbols.length < passLimit g :=
    Nat.lt_succ_of_le (Nat.mul_le_mul_right _ (length_nonTerminals_le hg))
  refine ends_bind_modify ?_
  have hpasses := ends_passes (followRule_monotone g s.first fixpoint) hg.lefts_nodup
    (M := g.symbols.symbols) (fun _ h => h.keyed) (fun _ h => h.least)
    (fun _ h x y hy => h.least x y hy _ (closes_follow_table hg hfirst)) (fun _ => rfl)
    (fun _ h => ends_followPass hg h) hlimit fixpoint hs.followInvariant
  refine hpasses.imp ?_
  intro _ t hpost
  obtain ⟨ht, hsolves⟩ := hpost
  exact ⟨⟨ht.solved, ht.first_eq ▸ hsolves⟩, ht.first_eq⟩

end Solver

end GrammarLab
