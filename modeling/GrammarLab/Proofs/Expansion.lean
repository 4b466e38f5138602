import Mathlib
import GrammarLab.Proofs.Family

/-!
# Guarded expansion and its iteration

FIRST and FOLLOW are computed alike: rules say what the set of a key must hold, given the sets
reached so far; a symbol is marked and then expanded, which adds what its rules ask for. An
expansion may read sets that are still growing. What it reads is never less than what the pass
began with, so a pass that adds nothing has closed the family under the rules. Nothing is ever
added that the least solution lacks.
-/

namespace GrammarLab.Solver

/-- The computation ends without a fault, and its answer and last state satisfy `Q`. -/
def Ends {α : Type} (act : Compute α) (s : State) (Q : α → State → Prop) : Prop :=
  ∃ a t, act.run s = .ok a t ∧ Q a t

instance decidableEnds {α : Type} (act : Compute α) (s : State) (Q : α → State → Prop)
    [∀ a t, Decidable (Q a t)] : Decidable (Ends act s Q) :=
  match h : act.run s with
  | .ok a t => decidable_of_iff (Q a t) (by simp [Ends, h])
  | .error _ _ => isFalse (by simp [Ends, h])

section Ends

variable {α β : Type} {act : Compute α} {s : State} {Q : α → State → Prop}

theorem Ends.imp (h : Ends act s Q) {R : α → State → Prop} (k : ∀ a t, Q a t → R a t) :
    Ends act s R := by
  obtain ⟨a, t, hrun, hq⟩ := h
  exact ⟨a, t, hrun, k a t hq⟩

theorem Ends.and (h : Ends act s Q) {R : α → State → Prop} (k : Ends act s R) :
    Ends act s fun a t => Q a t ∧ R a t := by
  obtain ⟨a, t, hrun, hq⟩ := h
  obtain ⟨b, u, hagain, hr⟩ := k
  obtain ⟨rfl, rfl⟩ := EStateM.Result.ok.inj (hrun.symm.trans hagain)
  exact ⟨a, t, hrun, hq, hr⟩

theorem Ends.iff (h : Ends act s Q) {R : α → State → Prop} {P : Prop}
    (k : ∀ a t, Q a t → (R a t ↔ P)) : Ends act s R ↔ P := by
  refine ⟨fun hr => ?_, fun hp => h.imp fun a t hq => (k a t hq).mpr hp⟩
  obtain ⟨a, t, -, hq, hr⟩ := h.and hr
  exact (k a t hq).mp hr

theorem ends_pure {a : α} (h : Q a s) : Ends (pure a) s Q := ⟨a, s, rfl, h⟩

theorem Ends.bind (h : Ends act s Q) {K : α → Compute β} {R : β → State → Prop}
    (k : ∀ a t, Q a t → Ends (K a) t R) : Ends (act >>= K) s R := by
  obtain ⟨a, t, hrun, hq⟩ := h
  obtain ⟨b, u, hnext, hr⟩ := k a t hq
  refine ⟨b, u, ?_, hr⟩
  rw [EStateM.run_bind, hrun]
  exact hnext

theorem ends_bind_get {next : State → Compute β} {R : β → State → Prop} (h : Ends (next s) s R) :
    Ends (get >>= next) s R := h

theorem ends_modify {f : State → State} {R : Unit → State → Prop} (h : R () (f s)) :
    Ends (modify f) s R := ⟨(), f s, rfl, h⟩

theorem ends_bind_modify {f : State → State} {next : Unit → Compute β} {R : β → State → Prop}
    (h : Ends (next ()) (f s) R) : Ends (modify f >>= next) s R := h

theorem Ends.discard (h : Ends act s Q) {R : Unit → State → Prop} (k : ∀ a t, Q a t → R () t) :
    Ends (discard act) s R :=
  h.bind (K := fun _ => pure ()) fun a t hq => ends_pure (k a t hq)

theorem ends_forM {I : State → Prop} {loop : α → Compute Unit} {as : List α}
    (hloop : ∀ a ∈ as, ∀ s, I s → Ends (loop a) s fun _ t => I t) (hs : I s) :
    Ends (as.forM loop) s fun _ t => I t := by
  induction as generalizing s with
  | nil => exact ends_pure hs
  | cons a rest ih =>
    refine (hloop a List.mem_cons_self s hs).bind fun _ t ht => ?_
    exact ih (fun b hb => hloop b (List.mem_cons_of_mem _ hb)) ht

end Ends

/-- Repetition ends once a pass adds nothing, which it must before the size exceeds its bound. -/
theorem ends_untilStable {size : State → Nat} {pass : Compute Unit} {I Q : State → Prop}
    {bound : Nat} (hbound : ∀ s, I s → size s ≤ bound)
    (hpass : ∀ s, I s → Ends pass s fun _ t =>
      I t ∧ size s ≤ size t ∧ (size t = size s → Q t)) :
    ∀ limit s, I s → bound < size s + limit →
      Ends (untilStable size pass limit) s fun _ t => I t ∧ Q t := by
  intro limit
  induction limit with
  | zero =>
    intro s hs hlimit
    have := hbound s hs
    omega
  | succ limit ih =>
    intro s hs hlimit
    refine ends_bind_get ((hpass s hs).bind ?_)
    intro _ t hpost
    obtain ⟨ht, hle, hstable⟩ := hpost
    refine ends_bind_get ?_
    dsimp only
    split
    · next heq => exact ends_pure ⟨ht, hstable heq⟩
    · next hne => exact ih _ ht (by omega)

/-- What the set of a symbol must hold, given a family. -/
abbrev Rules := Family → Symbol → Symbol → Prop

def Closes (rules : Rules) (keys : List Symbol) (P : Symbol → Symbol → Prop) : Prop :=
  ∀ f : Family, (∀ x y, y ∈ f.get x → P x y) → ∀ x ∈ keys, ∀ y, rules f x y → P x y

def Least (rules : Rules) (keys : List Symbol) (x y : Symbol) : Prop :=
  ∀ P, Closes rules keys P → P x y

theorem closes_least (rules : Rules) (keys : List Symbol) :
    Closes rules keys (Least rules keys) := by
  intro f hf x hx y hy P hP
  exact hP f (fun a b hb => hf a b hb P hP) x hx y hy

/-- A rule by which `x` receives members of the least solution only. -/
def Admits (rules : Rules) (keys : List Symbol) (x : Symbol) (rule : Family → Symbol → Prop) :
    Prop :=
  ∀ f : Family, (∀ z y, y ∈ f.get z → Least rules keys z y) → ∀ y, rule f y → Least rules keys x y

theorem Least.exists_rules {rules : Rules} {keys : List Symbol} {x y : Symbol}
    (h : Least rules keys x y) :
    ∃ f : Family, (∀ a b, b ∈ f.get a → Least rules keys a b) ∧ rules f x y := by
  have hclosed : Closes rules keys fun x y => Least rules keys x y ∧
      ∃ f : Family, (∀ a b, b ∈ f.get a → Least rules keys a b) ∧ rules f x y := by
    intro f hf x hx y hy
    have hwithin : ∀ a b, b ∈ f.get a → Least rules keys a b := fun a b hb => (hf a b hb).1
    exact ⟨closes_least rules keys f hwithin x hx y hy, f, hwithin, hy⟩
  exact (h _ hclosed).2

theorem least_of_rules {rules : Rules} {keys : List Symbol} {x y : Symbol} (hx : x ∈ keys)
    (hy : rules {} x y) : Least rules keys x y :=
  closes_least rules keys {} (fun z w hw => absurd hw (Family.not_mem_get_nothing z w)) x hx y hy

theorem Least.mem_keys {rules : Rules} {keys : List Symbol} {x y : Symbol}
    (h : Least rules keys x y) : x ∈ keys :=
  h (fun x _ => x ∈ keys) fun _ _ _ hx _ _ => hx

theorem admits_rules {rules : Rules} {keys : List Symbol} {x : Symbol} (hx : x ∈ keys) :
    Admits rules keys x fun f y => rules f x y := by
  intro f hf y hy
  exact closes_least rules keys f hf x hx y hy

theorem Admits.imp {rules : Rules} {keys : List Symbol} {x : Symbol}
    {rule other : Family → Symbol → Prop} (h : Admits rules keys x rule)
    (hother : ∀ f y, other f y → rule f y) : Admits rules keys x other := by
  intro f hf y hy
  exact h f hf y (hother f y hy)

/-- A family within the least solution. One pass gives it at least what the rules ask from nothing,
iterated passes all that they ask. -/
structure Solves (rules : Rules) (keys : List Symbol) (fixpoint : Bool) (f : Family) : Prop where
  keyed : f.Over keys
  least : ∀ x y, y ∈ f.get x → Least rules keys x y
  passed : ∀ x ∈ keys, ∀ y, rules {} x y → y ∈ f.get x
  closed : fixpoint = true → ∀ x ∈ keys, ∀ y, rules f x y → y ∈ f.get x

def Monotone (rules : Rules) : Prop :=
  ∀ f h : Family, f.Le h → ∀ x y, rules f x y → rules h x y

/-- Iterated passes reach the least solution. -/
theorem Solves.mem_get_iff {rules : Rules} {keys : List Symbol} {f : Family}
    (h : Solves rules keys true f) (hmono : Monotone rules) {x y : Symbol} :
    y ∈ f.get x ↔ Least rules keys x y := by
  refine ⟨h.least x y, fun hy => hy (fun x y => y ∈ f.get x) ?_⟩
  intro k hk x hx y hy
  exact h.closed rfl x hx y (hmono k f hk x y hy)

/-- What happens between two moments of a pass. A symbol marked in between has received all that
its rules ask from the family of the first moment. -/
structure Expands (rules : Rules) (field : State → Family) (s t : State) : Prop where
  grows : (field s).Le (field t)
  marks : ∀ z ∈ s.marked, z ∈ t.marked
  expanded : ∀ z ∈ t.marked, z ∉ s.marked → ∀ y, rules (field s) z y → y ∈ (field t).get z

section Expands

variable {rules : Rules} {field : State → Family}

theorem Expands.of_le {s t : State} (hle : (field s).Le (field t)) (hm : t.marked = s.marked) :
    Expands rules field s t :=
  ⟨hle, fun _ hz => hm ▸ hz, fun _ hz hn => absurd (hm ▸ hz) hn⟩

theorem Expands.refl (s : State) : Expands rules field s s :=
  .of_le (Family.Le.refl _) rfl

theorem Expands.trans (hmono : Monotone rules) {s t u : State} (a : Expands rules field s t)
    (b : Expands rules field t u) : Expands rules field s u := by
  refine ⟨a.grows.trans b.grows, fun z hz => b.marks z (a.marks z hz), ?_⟩
  intro z hz hn y hy
  by_cases ht : z ∈ t.marked
  · exact b.grows z y (a.expanded z ht hn y hy)
  · exact b.expanded z hz ht y (hmono _ _ a.grows z y hy)

theorem Expands.of_mark {s t : State} {x : Symbol}
    (h : Expands rules field { s with marked := x :: s.marked } t)
    (hfield : field { s with marked := x :: s.marked } = field s)
    (hx : ∀ y, rules (field s) x y → y ∈ (field t).get x) : Expands rules field s t := by
  refine ⟨hfield ▸ h.grows, fun z hz => h.marks z (List.mem_cons_of_mem _ hz), ?_⟩
  intro z hz hn y hy
  by_cases hzx : z = x
  · subst hzx
    exact hx y hy
  · exact h.expanded z hz (by simp [hzx, hn]) y (hfield.symm ▸ hy)

theorem Expands.forM (hmono : Monotone rules) {α : Type} {I : State → Prop}
    {act : α → Compute Unit} {D : α → State → State → Prop}
    (hdone : ∀ {a s t u v}, Expands rules field s t → D a t u → Expands rules field u v → D a s v)
    {as : List α} (hact : ∀ a ∈ as, ∀ s, I s →
      Ends (act a) s fun _ t => I t ∧ Expands rules field s t ∧ D a s t) {s : State} (hs : I s) :
    Ends (as.forM act) s fun _ t => I t ∧ Expands rules field s t ∧ ∀ a ∈ as, D a s t := by
  induction as generalizing s with
  | nil => exact ends_pure ⟨hs, .refl s, fun a ha => absurd ha List.not_mem_nil⟩
  | cons a rest ih =>
    apply (hact a List.mem_cons_self s hs).bind
    intro _ t hpost
    obtain ⟨ht, hst, hda⟩ := hpost
    refine (ih (fun b hb => hact b (List.mem_cons_of_mem _ hb)) ht).imp ?_
    intro _ u hpost
    obtain ⟨hu, htu, hdrest⟩ := hpost
    refine ⟨hu, hst.trans hmono htu, fun b hb => ?_⟩
    rcases List.mem_cons.mp hb with rfl | hb
    · exact hdone (.refl s) hda htu
    · exact hdone hst (hdrest b hb) (.refl u)

theorem Expands.forM_marked (hmono : Monotone rules) {α : Type} {I : State → Prop}
    {act : α → Compute Unit} {key : α → Symbol} {as : List α}
    (hact : ∀ a ∈ as, ∀ s, I s →
      Ends (act a) s fun _ t => I t ∧ Expands rules field s t ∧ key a ∈ t.marked)
    {s : State} (hs : I s) :
    Ends (as.forM act) s fun _ t =>
      I t ∧ Expands rules field s t ∧ ∀ a ∈ as, key a ∈ t.marked := by
  apply Expands.forM hmono (D := fun a _ t => key a ∈ t.marked) _ hact hs
  intro a s t u v _ hmarked hafter
  exact hafter.marks _ hmarked

/-- An invariant that implies another one and lasts where sets grow within that other one. -/
structure Refines (field : State → Family) (J I : State → Prop) : Prop where
  sound : ∀ {s}, I s → J s
  grown : ∀ {s t}, I s → J t → (field s).Le (field t) → t.marked = s.marked → I t

theorem refines_le (field : State → Family) (J : State → Prop) (f : Family) :
    Refines field J fun s => J s ∧ f.Le (field s) :=
  ⟨fun h => h.1, fun h ht hle _ => ⟨ht, h.2.trans hle⟩⟩

/-- The computation keeps an invariant, is an expansion, and gives `x` what a rule asks from each of
the families `F`. -/
def Gives (rules : Rules) (field : State → Family) (I : State → Prop) (F : Family → Prop)
    (x : Symbol) (rule : Family → Symbol → Prop) (act : Compute Unit) (s : State) : Prop :=
  Ends act s fun _ t =>
    I t ∧ Expands rules field s t ∧ ∀ f, F f → ∀ y, rule f y → y ∈ (field t).get x

abbrev GivesOwn (rules : Rules) (field : State → Family) (I : State → Prop) (F : Family → Prop)
    (x : Symbol) (act : Compute Unit) (s : State) : Prop :=
  Gives rules field I F x (fun f y => y ∈ f.get x) act s

section Gives

variable {I : State → Prop} {F : Family → Prop} {x : Symbol} {rule other : Family → Symbol → Prop}
  {act next : Compute Unit} {s : State}

theorem gives_pure (hs : I s) (hrule : ∀ f, F f → ∀ y, ¬rule f y) :
    Gives rules field I F x rule (pure ()) s :=
  ends_pure ⟨hs, .refl s, fun f hf y hy => absurd hy (hrule f hf y)⟩

theorem Gives.imp (h : Gives rules field I F x rule act s)
    (hother : ∀ f, F f → ∀ y, other f y → rule f y) : Gives rules field I F x other act s := by
  apply Ends.imp h
  intro _ t hpost
  obtain ⟨ht, hst, hgiven⟩ := hpost
  exact ⟨ht, hst, fun f hf y hy => hgiven f hf y (hother f hf y hy)⟩

theorem Gives.after (hmono : Monotone rules) {t : State} (hst : Expands rules field s t)
    (h : Gives rules field I F x rule act t) :
    Ends act t fun _ u =>
      I u ∧ Expands rules field s u ∧ ∀ f, F f → ∀ y, rule f y → y ∈ (field u).get x := by
  apply Ends.imp h
  intro _ u hpost
  obtain ⟨hu, htu, hgiven⟩ := hpost
  exact ⟨hu, hst.trans hmono htu, hgiven⟩

theorem Gives.bind (hmono : Monotone rules) (h : Gives rules field I F x rule act s)
    (hnext : ∀ t, I t → Expands rules field s t → Gives rules field I F x other next t) :
    Gives rules field I F x (fun f y => rule f y ∨ other f y) (act >>= fun _ => next) s := by
  apply Ends.bind h
  intro _ t hpost
  obtain ⟨ht, hst, hgiven⟩ := hpost
  apply Ends.imp (hnext t ht hst)
  intro _ u hpost
  obtain ⟨hu, htu, hlater⟩ := hpost
  refine ⟨hu, hst.trans hmono htu, fun f hf y hy => ?_⟩
  rcases hy with hy | hy
  · exact htu.grows x y (hgiven f hf y hy)
  · exact hlater f hf y hy

theorem Gives.of_mark (hF : F (field s))
    (hfield : field { s with marked := x :: s.marked } = field s)
    (h : Gives rules field I F x (fun f y => rules f x y) act { s with marked := x :: s.marked }) :
    Ends act { s with marked := x :: s.marked } fun _ t =>
      I t ∧ Expands rules field s t ∧ x ∈ t.marked := by
  apply Ends.imp h
  intro _ t hpost
  obtain ⟨ht, hst, hgiven⟩ := hpost
  exact ⟨ht, hst.of_mark hfield (hgiven _ hF), hst.marks x List.mem_cons_self⟩

theorem givesOwn_of_expands {J : State → Prop} {f : Family} (hle : f.Le (field s))
    (h : Ends act s fun _ t => J t ∧ Expands rules field s t) :
    GivesOwn rules field (fun t => J t ∧ f.Le (field t)) (· = f) x act s := by
  apply Ends.imp h
  intro _ t hpost
  obtain ⟨ht, hst⟩ := hpost
  have hkept : f.Le (field t) := hle.trans hst.grows
  refine ⟨⟨ht, hkept⟩, hst, ?_⟩
  rintro _ rfl y hy
  exact hkept x y hy

theorem Gives.forM (hmono : Monotone rules) {α : Type} {act : α → Compute Unit}
    {R : α → Family → Symbol → Prop} {as : List α}
    (hact : ∀ a ∈ as, ∀ s, I s → Gives rules field I F x (R a) (act a) s) (hs : I s) :
    Gives rules field I F x (fun f y => ∃ a ∈ as, R a f y) (as.forM act) s := by
  have hlast : ∀ {a : α} {s t u v : State}, Expands rules field s t →
      (∀ f, F f → ∀ y, R a f y → y ∈ (field u).get x) → Expands rules field u v →
        ∀ f, F f → ∀ y, R a f y → y ∈ (field v).get x :=
    fun _ hgiven hafter f hf y hy => hafter.grows x y (hgiven f hf y hy)
  apply (Expands.forM hmono
    (D := fun a _ t => ∀ f, F f → ∀ y, R a f y → y ∈ (field t).get x) hlast hact hs).imp
  intro _ t hpost
  obtain ⟨ht, hst, hgiven⟩ := hpost
  refine ⟨ht, hst, fun f hf y hy => ?_⟩
  obtain ⟨a, ha, hy⟩ := hy
  exact hgiven a ha f hf y hy

end Gives

/-- A marked symbol is passed over, any other is marked and visited. A visit expands what it reads
with one nesting less. -/
def guarded (visit : (Symbol → Compute Unit) → Symbol → Compute Unit) : Nat → Symbol → Compute Unit
  | 0, _ => pure ()
  | depth + 1, x => do
    if x ∈ (← get).marked then pure () else
    mark x
    visit (guarded visit depth) x

section Guarded

variable {visit : (Symbol → Compute Unit) → Symbol → Compute Unit} {s : State} {x : Symbol}
  {Q : Unit → State → Prop}

theorem ends_guarded_of_marked (hx : x ∈ s.marked) (depth : Nat) (h : Q () s) :
    Ends (guarded visit depth x) s Q := by
  cases depth with
  | zero => exact ends_pure h
  | succ depth =>
    refine ends_bind_get ?_
    rw [if_pos hx]
    exact ends_pure h

theorem ends_guarded_of_new (hx : x ∉ s.marked) {depth : Nat}
    (h : Ends (visit (guarded visit depth) x) { s with marked := x :: s.marked } Q) :
    Ends (guarded visit (depth + 1) x) s Q := by
  refine ends_bind_get ?_
  rw [if_neg hx]
  exact ends_bind_modify h

end Guarded

/-- What a visit achieves that reads the sets of the symbols `reads` relates its key to. It keeps the
invariant `J`, also with more beside it, and gives its key what the rules ask for, provided that each
set read has been given its own members just before. -/
structure Visits (rules : Rules) (keys : List Symbol) (field : State → Family) (J : State → Prop)
    (reads : Symbol → Symbol → Prop)
    (visit : (Symbol → Compute Unit) → Symbol → Compute Unit) : Prop where
  field_mark : ∀ s marks, field { s with marked := marks } = field s
  mark : ∀ s marks, J s → J { s with marked := marks }
  reads_mem : ∀ x y, reads x y → y ∈ keys
  gives : ∀ {I : State → Prop} {F : Family → Prop} {expand : Symbol → Compute Unit} {x : Symbol}
    {s : State}, Refines field J I → x ∈ keys →
      (∀ y, reads x y → ∀ s, I s → GivesOwn rules field I F y (expand y) s) → I s →
        Gives rules field I F x (fun f y => rules f x y) (visit expand x) s

/-- Guarded expansion marks a key, unless no nesting is left, and gives it what its rules ask for. -/
theorem Visits.ends_guarded {keys : List Symbol} {J : State → Prop} {reads : Symbol → Symbol → Prop}
    {visit : (Symbol → Compute Unit) → Symbol → Compute Unit}
    (h : Visits rules keys field J reads visit) (depth : Nat) {x : Symbol} (hx : x ∈ keys)
    {s : State} (hs : J s) :
    Ends (guarded visit depth x) s fun _ t =>
      J t ∧ Expands rules field s t ∧ (0 < depth → x ∈ t.marked) := by
  induction depth generalizing x s with
  | zero => exact ends_pure ⟨hs, .refl s, fun h => absurd h (by decide)⟩
  | succ depth ih =>
    by_cases hknown : x ∈ s.marked
    · exact ends_guarded_of_marked hknown _ ⟨hs, .refl s, fun _ => hknown⟩
    refine ends_guarded_of_new hknown ?_
    have hown : ∀ y, reads x y → ∀ t, J t ∧ (field s).Le (field t) →
        GivesOwn rules field (fun t => J t ∧ (field s).Le (field t)) (· = field s) y
          (guarded visit depth y) t := by
      intro y hy t ht
      exact givesOwn_of_expands ht.2 ((ih (h.reads_mem x y hy) ht.1).imp fun _ u k => ⟨k.1, k.2.1⟩)
    have hfield := h.field_mark s (x :: s.marked)
    have hbegin : J { s with marked := x :: s.marked } ∧
        (field s).Le (field { s with marked := x :: s.marked }) :=
      ⟨h.mark s _ hs, hfield.symm ▸ Family.Le.refl _⟩
    have hvisited := h.gives (refines_le field J (field s)) hx hown hbegin
    have hmarked := hvisited.of_mark (F := (· = field s)) rfl hfield
    exact hmarked.imp fun _ u k => ⟨k.1.1, k.2.1, fun _ => k.2.2⟩

theorem Expands.closed_of_stalled (hmono : Monotone rules) {s t : State}
    (h : Expands rules field s t) (hs : s.marked = []) (hback : (field t).Le (field s)) {z : Symbol}
    (hz : z ∈ t.marked) {y : Symbol} (hy : rules (field t) z y) : y ∈ (field t).get z :=
  h.expanded z hz (by simp [hs]) y (hmono _ _ hback z y hy)

/-- One pass keeps a family within the least solution; iterated passes reach it. -/
theorem ends_passes (hmono : Monotone rules) {keys M : List Symbol} (hnodup : keys.Nodup)
    {I : State → Prop} (hover : ∀ s, I s → (field s).Over keys)
    (hleast : ∀ s, I s → ∀ x y, y ∈ (field s).get x → Least rules keys x y)
    (hmem : ∀ s, I s → ∀ x y, y ∈ (field s).get x → y ∈ M)
    (hfield : ∀ s, field { s with marked := [] } = field s) {pass : Compute Unit}
    (hpass : ∀ s, I s → Ends pass s fun _ t =>
      I t ∧ Expands rules field { s with marked := [] } t ∧ ∀ x ∈ keys, x ∈ t.marked)
    {limit : Nat} (hlimit : keys.length * M.length < limit) (fixpoint : Bool) {s : State}
    (hs : I s) :
    Ends (if fixpoint then untilStable (fun s => (field s).totalSize) pass limit else pass) s
      fun _ t => I t ∧ Solves rules keys fixpoint (field t) := by
  cases fixpoint with
  | false =>
    refine (hpass s hs).imp ?_
    intro _ t hpost
    obtain ⟨ht, hexp, hmarks⟩ := hpost
    refine ⟨ht, hover t ht, hleast t ht, fun x hx y hy => ?_, fun h => absurd h (by decide)⟩
    exact hexp.expanded x (hmarks x hx) List.not_mem_nil y
      (hmono _ _ (Family.nothing_le _) x y hy)
  | true =>
    have hgrowing : ∀ s, I s → Ends pass s fun _ t => I t ∧
        (field s).totalSize ≤ (field t).totalSize ∧
        ((field t).totalSize = (field s).totalSize →
          ∀ x ∈ keys, ∀ y, rules (field t) x y → y ∈ (field t).get x) := by
      intro s hs
      refine (hpass s hs).imp ?_
      intro _ t hpost
      obtain ⟨ht, hexp, hmarks⟩ := hpost
      have hle : (field s).Le (field t) := hfield s ▸ hexp.grows
      refine ⟨ht, Family.totalSize_le (hover s hs) (hover t ht) hnodup hle, ?_⟩
      intro hsize x hx y hy
      have hback := Family.le_of_totalSize_eq (hover s hs) (hover t ht) hnodup hle hsize
      exact hexp.closed_of_stalled hmono rfl ((hfield s).symm ▸ hback) (hmarks x hx) hy
    have hbound : ∀ s, I s → (field s).totalSize ≤ keys.length * M.length :=
      fun s hs => Family.totalSize_bound (hover s hs) hnodup (hmem s hs)
    refine (ends_untilStable hbound hgrowing limit s hs (by omega)).imp ?_
    intro _ t hpost
    obtain ⟨ht, hclosed⟩ := hpost
    exact ⟨ht, hover t ht, hleast t ht,
      fun x hx y hy => hclosed x hx y (hmono _ _ (Family.nothing_le _) x y hy), fun _ => hclosed⟩

end Expands

end GrammarLab.Solver
