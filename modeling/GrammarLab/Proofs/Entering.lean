import Mathlib
import GrammarLab.Proofs.Table

/-!
# Entering alternatives into a table

Alternatives are entered one after the other, each under the lookaheads that select it. Of a left
symbol and a lookahead only the list of its selected candidates counts: the cell holds the last of
them, and its conflicts are the neighbours in that list that differ. An alternative that writes a
cell twice is in the list once.
-/

namespace GrammarLab

/-- Neighbours in a list of candidates that differ, in order. -/
def Candidate.changes (cs : List Candidate) : List (Candidate × Candidate) :=
  (cs.zip cs.tail).filter fun (c, d) => c ≠ d

theorem Candidate.changes_cons (c d : Candidate) (rest : List Candidate) :
    changes (c :: d :: rest) =
      (if c = d then [] else [(c, d)]) ++ changes (d :: rest) := by
  by_cases h : c = d <;> simp [changes, h]

theorem Candidate.changes_append_singleton (cs : List Candidate) (c : Candidate) :
    changes (cs ++ [c]) =
      changes cs ++ (cs.getLast?.toList.filter fun d => d ≠ c).map fun d => (d, c) := by
  induction cs with
  | nil => rfl
  | cons d rest ih =>
    cases rest with
    | nil => by_cases h : d = c <;> simp [changes, h]
    | cons d' rest =>
      rw [List.cons_append, List.cons_append, changes_cons, ← List.cons_append, ih, changes_cons,
        List.getLast?_cons_cons, List.append_assoc]

theorem Candidate.mem_of_mem_changes {cs : List Candidate} {pair : Candidate × Candidate}
    (h : pair ∈ changes cs) : pair.1 ∈ cs := (List.of_mem_zip (List.mem_filter.mp h).1).1

theorem Candidate.changes_eq_nil_iff {cs : List Candidate} :
    changes cs = [] ↔ ∀ c ∈ cs, ∀ d ∈ cs, c = d := by
  induction cs with
  | nil => simp [changes]
  | cons c rest ih =>
    cases rest with
    | nil => simp [changes]
    | cons d rest =>
      rw [changes_cons, List.append_eq_nil_iff, ih]
      constructor
      · rintro ⟨hcd, hrest⟩
        obtain rfl : c = d := by
          by_contra hne
          simp [hne] at hcd
        intro a ha b hb
        exact hrest a (by simpa using ha) b (by simpa using hb)
      · intro h
        have hcd : c = d := h c (by simp) d (by simp)
        refine ⟨by simp [hcd], fun a ha b hb => ?_⟩
        exact h a (List.mem_cons_of_mem _ ha) b (List.mem_cons_of_mem _ hb)

theorem Candidate.getLast?_changes {cs : List Candidate} {pair : Candidate × Candidate}
    (h : (changes cs).getLast? = some pair) : cs.getLast? = some pair.2 := by
  induction cs using List.reverseRecOn with
  | nil => cases h
  | append_singleton cs c ih =>
    rw [changes_append_singleton] at h
    rw [List.getLast?_concat]
    cases hlast : cs.getLast? with
    | none =>
      obtain rfl := List.getLast?_eq_none_iff.mp hlast
      cases h
    | some d =>
      by_cases hd : d = c
      · have hsame : (changes cs).getLast? = some pair := by simpa [hlast, hd] using h
        rw [← ih hsame, hlast, hd]
      · have hpair : (d, c) = pair := by simpa [hlast, hd] using h
        rw [← hpair]

namespace ParsingTable

variable {t : ParsingTable} {x y a b : Symbol} {c : Candidate}

def conflictsAt (t : ParsingTable) (x a : Symbol) : List Conflict :=
  t.conflicts.filter fun k => k.left = x ∧ k.lookahead = a

def displaced (t : ParsingTable) (e : Entry) : List Conflict :=
  ((t.lookup e.left e.lookahead).toList.filter fun c => c ≠ e.candidate).map fun c =>
    ⟨e.left, e.lookahead, c, e.candidate⟩

theorem mem_displaced {e : Entry} {k : Conflict} : k ∈ t.displaced e ↔
    k.left = e.left ∧ k.lookahead = e.lookahead ∧ k.replacement = e.candidate ∧
      t.lookup e.left e.lookahead = some k.replaced ∧ k.replaced ≠ k.replacement := by
  obtain ⟨x, a, old, new⟩ := k
  simp only [displaced, List.mem_map, List.mem_filter, Option.mem_toList, Conflict.mk.injEq,
    decide_eq_true_eq]
  constructor
  · rintro ⟨d, ⟨hd, hne⟩, rfl, rfl, rfl, rfl⟩
    exact ⟨rfl, rfl, rfl, hd, hne⟩
  · rintro ⟨rfl, rfl, rfl, hd, hne⟩
    exact ⟨old, ⟨hd, hne⟩, rfl, rfl, rfl, rfl⟩

theorem conflicts_write (t : ParsingTable) (e : Entry) :
    (t.write e).conflicts = t.conflicts ++ t.displaced e := by
  simp only [write, displaced]
  cases t.lookup e.left e.lookahead with
  | none => simp
  | some old => by_cases h : old = e.candidate <;> simp [h]

def enter (t : ParsingTable) (x : Symbol) (c : Candidate) (lookaheads : List Symbol) :
    ParsingTable := (lookaheads.map fun a => ⟨x, a, c⟩).foldl write t

theorem row_isSome_enter {lookaheads : List Symbol} :
    ((t.enter x c lookaheads).row y).isSome = (t.row y).isSome := by
  induction lookaheads generalizing t with
  | nil => rfl
  | cons b rest ih => exact ih.trans row_isSome_write

theorem lookup_enter {lookaheads : List Symbol} (hrow : (t.row x).isSome) :
    (t.enter x c lookaheads).lookup y a =
      if y = x ∧ a ∈ lookaheads then some c else t.lookup y a := by
  induction lookaheads generalizing t with
  | nil => simp [enter]
  | cons b rest ih =>
    have hnext : ((t.write ⟨x, b, c⟩).row x).isSome := row_isSome_write.trans hrow
    have hstep := ih hnext
    rw [lookup_write] at hstep
    refine Eq.trans hstep ?_
    by_cases hy : y = x
    · subst hy
      by_cases hrest : a ∈ rest <;> by_cases hb : a = b <;> simp [hrest, hb, hrow]
    · simp [hy]

/-- Only the first write of a candidate to a cell can displace another one. -/
theorem conflicts_enter (c : Candidate) (lookaheads : List Symbol) (hrow : (t.row x).isSome) :
    ∃ new, (t.enter x c lookaheads).conflicts = t.conflicts ++ new ∧
      ∀ y a, (new.filter fun k => k.left = y ∧ k.lookahead = a) =
        if y = x ∧ a ∈ lookaheads then t.displaced ⟨y, a, c⟩ else [] := by
  induction lookaheads generalizing t with
  | nil => exact ⟨[], by simp [enter], by simp⟩
  | cons b rest ih =>
    have hnext : ((t.write ⟨x, b, c⟩).row x).isSome := row_isSome_write.trans hrow
    obtain ⟨new, hnew, hcells⟩ := ih hnext
    refine ⟨t.displaced ⟨x, b, c⟩ ++ new, ?_, fun y a => ?_⟩
    · rw [← List.append_assoc, ← conflicts_write]
      exact hnew
    rw [List.filter_append, hcells]
    by_cases hcell : y = x ∧ a = b
    · obtain ⟨rfl, rfl⟩ := hcell
      have hhere : ((t.displaced ⟨y, a, c⟩).filter fun k => k.left = y ∧ k.lookahead = a) =
          t.displaced ⟨y, a, c⟩ := by
        apply List.filter_eq_self.mpr
        intro k hk
        obtain ⟨hleft, hlookahead, -⟩ := mem_displaced.mp hk
        simp [hleft, hlookahead]
      have hagain : (t.write ⟨y, a, c⟩).displaced ⟨y, a, c⟩ = [] := by
        simp [displaced, lookup_write, hrow]
      rw [hhere]
      simp [hagain]
    · have hhere : ((t.displaced ⟨x, b, c⟩).filter fun k => k.left = y ∧ k.lookahead = a) = [] := by
        apply List.filter_eq_nil_iff.mpr
        intro k hk
        obtain ⟨hleft, hlookahead, -⟩ := mem_displaced.mp hk
        simp only [hleft, hlookahead, decide_eq_true_eq]
        rintro ⟨rfl, rfl⟩
        exact hcell ⟨rfl, rfl⟩
      have hsame : (t.write ⟨x, b, c⟩).displaced ⟨y, a, c⟩ = t.displaced ⟨y, a, c⟩ := by
        simp only [displaced, lookup_write]
        rw [if_neg fun h => hcell ⟨h.1, h.2.1⟩]
      rw [hhere, hsame, List.nil_append]
      by_cases hy : y = x
      · have ha : a ≠ b := fun h => hcell ⟨hy, h⟩
        simp [hy, ha]
      · simp [hy]

/-- The candidates of `x` that `a` selects, in the order of a list of alternatives. -/
def selectedIn (selects : Symbol → Symbol → Candidate → Prop)
    [∀ x a c, Decidable (selects x a c)] (alternatives : List (Symbol × Candidate))
    (x a : Symbol) : List Candidate :=
  (alternatives.filter fun (y, c) => y = x ∧ selects x a c).map Prod.snd

/-- The conflict arises when the alternative at the place displaces the candidate selected last
among the alternatives before it. -/
structure Overwrites (selects : Symbol → Symbol → Candidate → Prop)
    [∀ x a c, Decidable (selects x a c)] (alternatives : List (Symbol × Candidate))
    (place : Nat) (k : Conflict) : Prop where
  entered : alternatives[place]? = some (k.left, k.replacement)
  selected : selects k.left k.lookahead k.replacement
  before : (selectedIn selects (alternatives.take place) k.left k.lookahead).getLast? =
    some k.replaced
  differs : k.replaced ≠ k.replacement

section Entering

variable {lefts : List Symbol} {selects : Symbol → Symbol → Candidate → Prop}
  [∀ x a c, Decidable (selects x a c)] {lookaheads : Symbol → Candidate → List Symbol}
  {alternatives : List (Symbol × Candidate)}

/-- What a table holds once the alternatives are entered. -/
structure Enters (lefts : List Symbol) (selects : Symbol → Symbol → Candidate → Prop)
    [∀ x a c, Decidable (selects x a c)] (alternatives : List (Symbol × Candidate))
    (t : ParsingTable) : Prop where
  rows : ∀ x, (t.row x).isSome ↔ x ∈ lefts
  cells : ∀ x ∈ lefts, ∀ a, t.lookup x a = (selectedIn selects alternatives x a).getLast?
  conflicts : ∀ x a, t.conflictsAt x a =
    (Candidate.changes (selectedIn selects alternatives x a)).map fun (c, d) => ⟨x, a, c, d⟩
  places : ∃ places : List Nat, places.Pairwise (· ≤ ·) ∧ (∀ i ∈ places, i < alternatives.length) ∧
    List.Forall₂ (Overwrites selects alternatives) places t.conflicts

theorem selectedIn_append_singleton (selects : Symbol → Symbol → Candidate → Prop)
    [∀ x a c, Decidable (selects x a c)] (alternatives : List (Symbol × Candidate))
    (x y a : Symbol) (c : Candidate) : selectedIn selects (alternatives ++ [(x, c)]) y a =
      selectedIn selects alternatives y a ++ if x = y ∧ selects y a c then [c] else [] := by
  rw [selectedIn, List.filter_append, List.map_append, selectedIn]
  by_cases h : x = y ∧ selects y a c <;> simp [h]

theorem enters_blank : Enters lefts selects [] (blank lefts) := by
  constructor
  · intro x
    rw [← ofEntries_nil]
    exact row_isSome_ofEntries
  · intro x hx a
    exact lookup_blank lefts x a
  · intro x a
    rfl
  · exact ⟨[], List.Pairwise.nil, by simp, .nil⟩

theorem Overwrites.mono {i : Nat} {k : Conflict} (h : Overwrites selects alternatives i k)
    (more : List (Symbol × Candidate)) : Overwrites selects (alternatives ++ more) i k := by
  have hlt : i < alternatives.length := by
    obtain ⟨hlt, -⟩ := List.getElem?_eq_some_iff.mp h.entered
    exact hlt
  refine ⟨?_, h.selected, ?_, h.differs⟩
  · rw [List.getElem?_append_left hlt]
    exact h.entered
  · rw [List.take_append_of_le_length (Nat.le_of_lt hlt)]
    exact h.before

theorem Enters.enter {t : ParsingTable} (h : Enters lefts selects alternatives t) (hx : x ∈ lefts)
    (hselects : ∀ a, a ∈ lookaheads x c ↔ selects x a c) :
    Enters lefts selects (alternatives ++ [(x, c)]) (t.enter x c (lookaheads x c)) := by
  have hrow : (t.row x).isSome := (h.rows x).mpr hx
  obtain ⟨new, hnew, hcells⟩ := conflicts_enter c (lookaheads x c) hrow
  constructor
  · intro y
    rw [row_isSome_enter]
    exact h.rows y
  · intro y hy a
    rw [lookup_enter hrow, selectedIn_append_singleton selects]
    by_cases hsel : y = x ∧ a ∈ lookaheads x c
    · obtain ⟨rfl, ha⟩ := hsel
      simp [ha, (hselects a).mp ha]
    · have hnot : ¬(x = y ∧ selects y a c) := by
        rintro ⟨rfl, ha⟩
        exact hsel ⟨rfl, (hselects a).mpr ha⟩
      rw [if_neg hsel, if_neg hnot, List.append_nil]
      exact h.cells y hy a
  · intro y a
    rw [conflictsAt, hnew, List.filter_append, hcells, selectedIn_append_singleton selects]
    change t.conflictsAt y a ++ _ = _
    rw [h.conflicts]
    by_cases hsel : y = x ∧ a ∈ lookaheads x c
    · obtain ⟨rfl, ha⟩ := hsel
      rw [if_pos ⟨rfl, ha⟩, if_pos ⟨rfl, (hselects a).mp ha⟩,
        Candidate.changes_append_singleton, displaced, h.cells y hx a]
      simp
    · have hnot : ¬(x = y ∧ selects y a c) := by
        rintro ⟨rfl, ha⟩
        exact hsel ⟨rfl, (hselects a).mpr ha⟩
      rw [if_neg hsel, if_neg hnot, List.append_nil, List.append_nil]
  · obtain ⟨places, hsorted, hbound, hplaces⟩ := h.places
    refine ⟨places ++ new.map fun _ => alternatives.length, ?_, ?_, ?_⟩
    · refine List.pairwise_append.mpr ⟨hsorted, ?_, ?_⟩
      · exact List.pairwise_map.mpr (List.pairwise_of_forall fun _ _ => le_rfl)
      · intro i hi j hj
        obtain ⟨-, -, rfl⟩ := List.mem_map.mp hj
        exact Nat.le_of_lt (hbound i hi)
    · intro i hi
      rw [List.length_append]
      rcases List.mem_append.mp hi with hi | hi
      · exact Nat.lt_add_right _ (hbound i hi)
      · obtain ⟨-, -, rfl⟩ := List.mem_map.mp hi
        simp
    · rw [hnew]
      refine List.rel_append (hplaces.imp fun i k hk => hk.mono _) ?_
      rw [List.forall₂_map_left_iff, List.forall₂_same]
      intro k hk
      have hcell : k ∈ new.filter fun j => j.left = k.left ∧ j.lookahead = k.lookahead := by
        simp [hk]
      rw [hcells] at hcell
      split at hcell
      · next hsel =>
        obtain ⟨hleft, ha⟩ := hsel
        obtain ⟨-, -, hreplacement, hlookup, hne⟩ := mem_displaced.mp hcell
        change k.replacement = c at hreplacement
        rw [h.cells _ (hleft ▸ hx)] at hlookup
        refine ⟨?_, ?_, ?_, hne⟩
        · simp [hleft, hreplacement]
        · rw [hleft, hreplacement]
          exact (hselects _).mp ha
        · simpa using hlookup
      · cases hcell

theorem enters_foldl {t : ParsingTable} {before after : List (Symbol × Candidate)}
    (h : Enters lefts selects before t)
    (hafter : ∀ p ∈ after, p.1 ∈ lefts ∧ ∀ a, a ∈ lookaheads p.1 p.2 ↔ selects p.1 a p.2) :
    Enters lefts selects (before ++ after)
      (after.foldl (fun t p => t.enter p.1 p.2 (lookaheads p.1 p.2)) t) := by
  induction after generalizing before t with
  | nil => simpa using h
  | cons p rest ih =>
    obtain ⟨hp, hselects⟩ := hafter p List.mem_cons_self
    have hnext := ih (h.enter hp hselects) fun q hq => hafter q (List.mem_cons_of_mem _ hq)
    simpa using hnext

end Entering

end ParsingTable

end GrammarLab
