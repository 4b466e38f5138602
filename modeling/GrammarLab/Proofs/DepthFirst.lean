import Mathlib
import GrammarLab.Proofs.Expansion

/-!
# One pass along acyclic dependencies

A pass of guarded expansion is a depth-first search. A symbol is open from its mark to the end of
its visit, and the open symbols depend on the one that is visited. Without a cycle of dependencies
a visit therefore reads only sets of symbols whose visits have ended, and these are all that the
least solution has, by induction on the nesting that is left. What a symbol reads from its own set
while it is open is less; where it can do without, such a loop does no harm.
-/

namespace GrammarLab.Solver

theorem not_transGen_of_rank {α : Type} {r : α → α → Prop} (rank : α → Nat)
    (hfalls : ∀ x y, r x y → rank y < rank x) (x : α) : ¬Relation.TransGen r x x := by
  have hlower : ∀ y, Relation.TransGen r x y → rank y < rank x := by
    intro y hy
    induction hy with
    | single hxy => exact hfalls _ _ hxy
    | tail _ hyz ih => exact (hfalls _ _ hyz).trans ih
  exact fun hx => lt_irrefl _ (hlower x hx)

theorem transGen_restrict {α : Type} {r : α → α → Prop} {P : α → Prop}
    (hP : ∀ x y, r x y → P x) {x y : α} (h : Relation.TransGen r x y) (hy : P y) :
    Relation.TransGen (fun a b => r a b ∧ P b) x y := by
  induction h with
  | single hxy => exact .single ⟨hxy, hy⟩
  | tail _ hyz ih => exact (ih (hP _ _ hyz)).tail ⟨hyz, hy⟩

variable {rules : Rules} {keys : List Symbol} {field : State → Family} {s t : State}

/-- The symbols that are open. Every other marked one has its members of the least solution. -/
structure Orderly (rules : Rules) (keys : List Symbol) (field : State → Family)
    (opened : List Symbol) (s : State) : Prop where
  nodup : opened.Nodup
  marked : ∀ o ∈ opened, o ∈ s.marked
  finished : ∀ x ∈ s.marked, x ∉ opened → ∀ y, Least rules keys x y → y ∈ (field s).get x

namespace Orderly

variable {opened : List Symbol} {x : Symbol}

theorem cleared (hs : s.marked = []) : Orderly rules keys field [] s where
  nodup := List.nodup_nil
  marked _ ho := absurd ho List.not_mem_nil
  finished _ hx := absurd (hs ▸ hx) List.not_mem_nil

theorem grown (h : Orderly rules keys field opened s) (hle : (field s).Le (field t))
    (hm : t.marked = s.marked) : Orderly rules keys field opened t where
  nodup := h.nodup
  marked o ho := hm ▸ h.marked o ho
  finished x hx hn y hy := hle x y (h.finished x (hm ▸ hx) hn y hy)

theorem enter (h : Orderly rules keys field opened s) (hnew : x ∉ s.marked)
    (hfield : field { s with marked := x :: s.marked } = field s) :
    Orderly rules keys field (x :: opened) { s with marked := x :: s.marked } where
  nodup := List.nodup_cons.mpr ⟨fun hopen => hnew (h.marked x hopen), h.nodup⟩
  marked := List.forall_mem_cons.mpr
    ⟨List.mem_cons_self, fun o ho => List.mem_cons_of_mem _ (h.marked o ho)⟩
  finished z hz hn y hy := by
    have hne : z ≠ x := fun e => hn (e ▸ List.mem_cons_self)
    have hmarked : z ∈ s.marked := (List.mem_cons.mp hz).resolve_left hne
    have hopen : z ∉ opened := fun ho => hn (List.mem_cons_of_mem _ ho)
    exact hfield.symm ▸ h.finished z hmarked hopen y hy

theorem leave (h : Orderly rules keys field (x :: opened) s)
    (hx : ∀ y, Least rules keys x y → y ∈ (field s).get x) :
    Orderly rules keys field opened s where
  nodup := h.nodup.of_cons
  marked o ho := h.marked o (List.mem_cons_of_mem _ ho)
  finished z hz hn y hy := by
    by_cases hzx : z = x
    · exact hzx ▸ hx y (hzx ▸ hy)
    · exact h.finished z hz (List.not_mem_cons_of_ne_of_not_mem hzx hn) y hy

end Orderly

theorem refines_orderly (J : State → Prop) (opened : List Symbol) :
    Refines field J fun s => J s ∧ Orderly rules keys field opened s :=
  ⟨fun h => h.1, fun h ht hle hm => ⟨ht, h.2.grown hle hm⟩⟩

/-- Families within the least solution from which the rules ask all that a symbol has there. A
symbol that reads its own set gets along with families that give it nothing. -/
structure Sufficient (rules : Rules) (keys : List Symbol) (reads : Symbol → Symbol → Prop)
    (F : Symbol → Family → Prop) : Prop where
  least : ∀ x f, F x f → ∀ z y, y ∈ f.get z → Least rules keys z y
  loop : ∀ x, reads x x → ∀ f, F x f → ∀ y, y ∉ f.get x
  all : ∀ x, ∀ T : Symbol → Prop, (∀ f, F x f → ∀ y, rules f x y → T y) →
    ∀ y, Least rules keys x y → T y

theorem sufficient_of_irreflexive {reads : Symbol → Symbol → Prop} (h : ∀ x, ¬reads x x) :
    Sufficient rules keys reads fun _ f => ∀ z y, y ∈ f.get z → Least rules keys z y where
  least _ _ hf := hf
  loop x hx := absurd hx (h x)
  all x T hT y hy := by
    obtain ⟨f, hf, hrule⟩ := hy.exists_rules
    exact hT f hf y hrule

section Search

variable {J : State → Prop} {reads : Symbol → Symbol → Prop}
  {visit : (Symbol → Compute Unit) → Symbol → Compute Unit} {F : Symbol → Family → Prop}
  {readers opened : List Symbol} {x : Symbol}

/-- A key reads the set of another symbol, or of one that depends on it. -/
abbrev DependsOn (keys : List Symbol) (reads : Symbol → Symbol → Prop) : Symbol → Symbol → Prop :=
  Relation.TransGen fun x y => x ∈ keys ∧ x ≠ y ∧ reads x y

theorem Orderly.length_le (h : Orderly rules keys field opened s)
    (hreaders : ∀ x ∈ keys, ∀ y, reads x y → x ∈ readers)
    (hopened : ∀ o ∈ opened, DependsOn keys reads o x) : opened.length ≤ readers.length := by
  refine (h.nodup.subperm fun o ho => ?_).length_le
  obtain ⟨y, ⟨hkey, -, hy⟩, -⟩ := Relation.TransGen.head'_iff.mp (hopened o ho)
  exact hreaders o hkey y hy

variable (hv : Visits rules keys field J reads visit) (hF : Sufficient rules keys reads F)
  (hreaders : ∀ x ∈ keys, ∀ y, reads x y → x ∈ readers)
  (hacyclic : ∀ x, ¬DependsOn keys reads x x)

include hv hF hreaders hacyclic

/-- Expanding a key on which the open ones depend leaves it finished. The nesting that is left
covers the keys that read any set and are not open. -/
theorem ends_guarded_orderly (depth : Nat) (hx : x ∈ keys) (hs : J s)
    (ho : Orderly rules keys field opened s) (hopened : ∀ o ∈ opened, DependsOn keys reads o x)
    (hdepth : readers.length < depth + opened.length) :
    Ends (guarded visit depth x) s fun _ t =>
      J t ∧ Orderly rules keys field opened t ∧ x ∈ t.marked := by
  induction depth generalizing x opened s with
  | zero =>
    have := ho.length_le hreaders hopened
    omega
  | succ depth ih =>
    by_cases hmarked : x ∈ s.marked
    · exact ends_guarded_of_marked hmarked _ ⟨hs, ho, hmarked⟩
    refine ends_guarded_of_new hmarked ?_
    have hown : ∀ y, reads x y → ∀ t, J t ∧ Orderly rules keys field (x :: opened) t →
        GivesOwn rules field (fun t => J t ∧ Orderly rules keys field (x :: opened) t) (F x) y
          (guarded visit depth y) t := by
      intro y hy t ht
      by_cases hxy : x = y
      · -- the symbol reads its own set, which is still open
        subst hxy
        refine ends_guarded_of_marked (ht.2.marked x List.mem_cons_self) _ ⟨ht, .refl t, ?_⟩
        intro f hf z hz
        exact absurd hz (hF.loop x hy f hf z)
      · have hstep : DependsOn keys reads x y := .single ⟨hx, hxy, hy⟩
        have hnested : ∀ o ∈ x :: opened, DependsOn keys reads o y :=
          List.forall_mem_cons.mpr ⟨hstep, fun o ho => (hopened o ho).trans hstep⟩
        have hlater := ih (hv.reads_mem x y hy) ht.1 ht.2 hnested
          (by rw [List.length_cons]; omega)
        apply (hlater.and (hv.ends_guarded depth (hv.reads_mem x y hy) ht.1)).imp
        intro _ u hpost
        obtain ⟨⟨hu, hou, hyu⟩, -, hexpands, -⟩ := hpost
        have hclosed : y ∉ x :: opened := fun hy => hacyclic y (hnested y hy)
        exact ⟨⟨hu, hou⟩, hexpands,
          fun f hf z hz => hou.finished y hyu hclosed z (hF.least x f hf y z hz)⟩
    have hbegin := ho.enter hmarked (hv.field_mark s (x :: s.marked))
    apply Ends.imp (hv.gives (refines_orderly J (x :: opened)) hx hown ⟨hv.mark s _ hs, hbegin⟩)
    intro _ t hpost
    obtain ⟨⟨ht, hot⟩, -, hgiven⟩ := hpost
    exact ⟨ht, hot.leave (hF.all x _ hgiven), hot.marked x List.mem_cons_self⟩

theorem ends_forM_orderly {α : Type} {key : α → Symbol} {as : List α} (has : ∀ a ∈ as, key a ∈ keys)
    {depth : Nat} (hdepth : readers.length < depth)
    (hs : J s ∧ Orderly rules keys field [] s) :
    Ends (as.forM fun a => guarded visit depth (key a)) s fun _ t =>
      J t ∧ Orderly rules keys field [] t := by
  apply ends_forM _ hs
  intro a ha s hs
  have hnone : ∀ o ∈ ([] : List Symbol), DependsOn keys reads o (key a) :=
    fun o ho => absurd ho List.not_mem_nil
  apply (ends_guarded_orderly hv hF hreaders hacyclic depth (has a ha) hs.1 hs.2 hnone
    hdepth).imp
  exact fun _ t h => ⟨h.1, h.2.1⟩

end Search

end GrammarLab.Solver
