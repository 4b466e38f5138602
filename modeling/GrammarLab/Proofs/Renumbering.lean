import Mathlib
import GrammarLab.Proofs.Follow
import GrammarLab.Proofs.Input
import GrammarLab.Proofs.Rules

/-!
# Renumbering

Interning the same texts in another order gives them other indices. A renumbering permutes indices
and keeps texts and kinds. Between two tables that know the same texts with the same kinds there is
one, and it carries the productions of one grammar to those of the other. The least solutions of
the FIRST and FOLLOW rules are carried along, in whatever order their passes expand.
-/

namespace GrammarLab

def Symbol.renumber (π : Equiv.Perm Nat) (x : Symbol) : Symbol := { x with index := π x.index }

def Production.renumber (π : Equiv.Perm Nat) (p : Production) : Production :=
  ⟨p.left.renumber π, p.candidates.map (List.map (Symbol.renumber π))⟩

variable {π : Equiv.Perm Nat}

namespace Symbol

variable {x y : Symbol}

@[simp] theorem text_renumber : (x.renumber π).text = x.text := rfl
@[simp] theorem kind_renumber : (x.renumber π).kind = x.kind := rfl
@[simp] theorem isEmpty_renumber : (x.renumber π).IsEmpty ↔ x.IsEmpty := Iff.rfl
@[simp] theorem isVariable_renumber : (x.renumber π).IsVariable ↔ x.IsVariable := Iff.rfl
@[simp] theorem isTerminal_renumber : (x.renumber π).IsTerminal ↔ x.IsTerminal := Iff.rfl

@[simp] theorem renumber_symm_renumber : (x.renumber π).renumber π.symm = x := by
  simp [renumber]

@[simp] theorem renumber_renumber_symm : (x.renumber π.symm).renumber π = x := by
  simp [renumber]

theorem renumber_injective : Function.Injective (renumber π) :=
  Function.LeftInverse.injective fun _ => renumber_symm_renumber

@[simp] theorem renumber_inj : x.renumber π = y.renumber π ↔ x = y := renumber_injective.eq_iff

theorem renumber_eq_iff : x.renumber π = y ↔ x = y.renumber π.symm := by
  rw [← renumber_inj (π := π) (x := x), renumber_renumber_symm]

@[simp] theorem renumber_symm_comp : renumber π.symm ∘ renumber π = id :=
  funext fun _ => renumber_symm_renumber

end Symbol

namespace Production

@[simp] theorem left_renumber {p : Production} : (p.renumber π).left = p.left.renumber π := rfl

@[simp] theorem renumber_symm_renumber {p : Production} : (p.renumber π).renumber π.symm = p := by
  simp [renumber, Function.comp_def]

theorem renumber_injective : Function.Injective (renumber π) :=
  Function.LeftInverse.injective fun _ => renumber_symm_renumber

@[simp] theorem spelling_renumber {p : Production} : (p.renumber π).spelling = p.spelling := by
  simp [spelling, renumber, Function.comp_def]

end Production

namespace SymbolTable

variable {t t' : SymbolTable}

/-- Both tables know the same texts, and the indices of the one are permuted in the other. -/
structure Renumbers (π : Equiv.Perm Nat) (t t' : SymbolTable) : Prop where
  lookup : ∀ u, t'.lookup u = (t.lookup u).map (Symbol.renumber π)
  size : t'.size = t.size
  fixed : ∀ i, t.size ≤ i → π i = i

theorem Renumbers.symm (h : t.Renumbers π t') : t'.Renumbers π.symm t := by
  constructor
  · intro u
    rw [h.lookup, Option.map_map, Symbol.renumber_symm_comp, Option.map_id, id]
  · exact h.size.symm
  · intro i hi
    rw [Equiv.symm_apply_eq]
    exact (h.fixed i (h.size ▸ hi)).symm

theorem Renumbers.mem (h : t.Renumbers π t') (ht : t.WellFormed) {x : Symbol}
    (hx : x ∈ t.symbols) : x.renumber π ∈ t'.symbols := by
  have hlookup := h.lookup x.text
  rw [ht.lookup_text hx, Option.map_some] at hlookup
  exact (text_of_lookup hlookup).1

theorem Renumbers.fresh (h : t.Renumbers π t') (text : String) (kind : Kind) :
    t'.fresh text kind = (t.fresh text kind).renumber π := by
  simp [SymbolTable.fresh, Symbol.renumber, h.size, h.fixed t.size le_rfl]

theorem fst_intern (t : SymbolTable) (text : String) (kind : Kind) :
    (t.intern text kind).1 = (t.lookup text).getD (t.fresh text kind) := by
  rw [intern]
  cases t.lookup text <;> rfl

theorem size_intern (t : SymbolTable) (text : String) (kind : Kind) :
    (t.intern text kind).2.size = if (t.lookup text).isSome then t.size else t.size + 1 := by
  rw [intern]
  cases t.lookup text <;> simp [size]

theorem Renumbers.intern (h : t.Renumbers π t') (text : String) (kind : Kind) :
    (t'.intern text kind).1 = (t.intern text kind).1.renumber π ∧
      (t.intern text kind).2.Renumbers π (t'.intern text kind).2 := by
  refine ⟨?_, ?_, ?_, ?_⟩
  · rw [fst_intern, fst_intern, h.lookup, h.fresh]
    cases t.lookup text <;> rfl
  · intro u
    rw [lookup_intern, lookup_intern, h.lookup, h.fresh, Option.map_or]
    by_cases hu : u = text <;> simp [hu]
  · rw [size_intern, size_intern, h.lookup, h.size, Option.isSome_map]
  · intro i hi
    have hle : t.size ≤ (t.intern text kind).2.size := by
      rw [size_intern]
      split <;> omega
    exact h.fixed i (hle.trans hi)

theorem Renumbers.internAll (h : t.Renumbers π t') (kind : Kind) (texts : List String) :
    (t'.internAll kind texts).1 = (t.internAll kind texts).1.map (Symbol.renumber π) ∧
      (t.internAll kind texts).2.Renumbers π (t'.internAll kind texts).2 := by
  induction texts generalizing t t' with
  | nil => exact ⟨rfl, h⟩
  | cons text rest ih =>
    obtain ⟨hfirst, hnext⟩ := h.intern text kind
    obtain ⟨hrest, hlast⟩ := ih hnext
    exact ⟨congrArg₂ List.cons hfirst hrest, hlast⟩

section Carry

/-- The index in `t'` of the text that has the index `i` in `t`. -/
def carry (t t' : SymbolTable) (i : Nat) : Nat :=
  (t.symbols[i]?.bind fun x => t'.lookup x.text).elim i Symbol.index

theorem WellFormed.index_getElem? (ht : t.WellFormed) (i : Nat) :
    t.symbols[i]?.map Symbol.index = if i < t.size then some i else none := by
  rw [← List.getElem?_map, ht.indices]
  by_cases hi : i < t.size <;> simp [hi]

theorem WellFormed.getElem?_index (ht : t.WellFormed) {x : Symbol} (hx : x ∈ t.symbols) :
    t.symbols[x.index]? = some x := by
  obtain ⟨i, hi⟩ := List.mem_iff_getElem?.mp hx
  have hindex := ht.index_getElem? i
  rw [hi, Option.map_some] at hindex
  split at hindex
  · rw [Option.some.inj hindex]
    exact hi
  · cases hindex

theorem carry_index (ht : t.WellFormed) {x y : Symbol} (hx : x ∈ t.symbols)
    (hy : t'.lookup x.text = some y) : carry t t' x.index = y.index := by
  simp [carry, ht.getElem?_index hx, hy]

theorem carry_of_size_le {i : Nat} (hi : t.size ≤ i) : carry t t' i = i := by
  have hnone : t.symbols[i]? = none := List.getElem?_eq_none hi
  simp [carry, hnone]

variable (ht : t.WellFormed) (ht' : t'.WellFormed) (hkinds : ∀ u, t'.kindAt u = t.kindAt u)

include hkinds in
theorem exists_lookup_of_kindAt {u : String} {x : Symbol} (hx : t.lookup u = some x) :
    ∃ y, t'.lookup u = some y ∧ y.kind = x.kind := by
  have hkind := hkinds u
  rw [kindAt, kindAt, hx, Option.map_some] at hkind
  exact Option.map_eq_some_iff.mp hkind

include ht ht' hkinds

theorem size_eq_of_kindAt : t'.size = t.size := by
  have hknown : ∀ (t : SymbolTable) u, u ∈ t.symbols.map Symbol.text ↔ t.kindAt u ≠ none := by
    intro t u
    rw [kindAt, Ne, Option.map_eq_none_iff, lookup_eq_none_iff, not_not]
  have hperm : (t'.symbols.map Symbol.text).Perm (t.symbols.map Symbol.text) := by
    rw [List.perm_ext_iff_of_nodup ht'.texts ht.texts]
    intro u
    rw [hknown, hknown, hkinds]
  have hlength := hperm.length_eq
  rwa [List.length_map, List.length_map] at hlength

theorem carry_carry (i : Nat) : carry t' t (carry t t' i) = i := by
  have hsize := size_eq_of_kindAt ht ht' hkinds
  by_cases hi : i < t.size
  · have hx : t.symbols[i] ∈ t.symbols := List.getElem_mem hi
    have hindex := ht.index_getElem? i
    rw [if_pos hi, List.getElem?_eq_getElem hi, Option.map_some] at hindex
    obtain ⟨y, hy, -⟩ := exists_lookup_of_kindAt hkinds (ht.lookup_text hx)
    obtain ⟨hmem, htext⟩ := text_of_lookup hy
    have hback : t.lookup y.text = some t.symbols[i] := htext ▸ ht.lookup_text hx
    have hthere := carry_index ht hx hy
    rw [Option.some.inj hindex] at hthere
    rw [hthere, carry_index ht' hmem hback]
    exact Option.some.inj hindex
  · rw [carry_of_size_le (Nat.le_of_not_lt hi), carry_of_size_le (by omega)]

theorem exists_renumbers : ∃ π : Equiv.Perm Nat, t.Renumbers π t' := by
  have hkinds' : ∀ u, t.kindAt u = t'.kindAt u := fun u => (hkinds u).symm
  let π : Equiv.Perm Nat :=
    ⟨carry t t', carry t' t, carry_carry ht ht' hkinds, carry_carry ht' ht hkinds'⟩
  refine ⟨π, ?_, size_eq_of_kindAt ht ht' hkinds, fun i hi => carry_of_size_le hi⟩
  intro u
  cases hx : t.lookup u with
  | none =>
    have hnone := hkinds u
    rw [kindAt, kindAt, hx, Option.map_none] at hnone
    rw [Option.map_eq_none_iff.mp hnone, Option.map_none]
  | some x =>
    obtain ⟨y, hy, hkind⟩ := exists_lookup_of_kindAt hkinds hx
    obtain ⟨hmem, rfl⟩ := text_of_lookup hx
    obtain ⟨-, htext⟩ := text_of_lookup hy
    have hindex : π x.index = y.index := carry_index ht hmem hy
    rw [hy, Option.map_some, Symbol.renumber, hindex, ← htext, ← hkind]

end Carry

end SymbolTable

namespace Grammar

variable {g h : Grammar}

/-- The grammar `h` is the grammar `g` with other indices and its productions in another order. -/
structure Renumbers (π : Equiv.Perm Nat) (g h : Grammar) : Prop where
  symbols : g.symbols.Renumbers π h.symbols
  productions : (g.productions.map (Production.renumber π)).Perm h.productions
  empty : h.empty = g.empty.renumber π
  endMarker : h.endMarker = g.endMarker.renumber π
  start : h.start = g.start.map (Symbol.renumber π)

theorem Renumbers.symm (k : g.Renumbers π h) : h.Renumbers π.symm g := by
  constructor
  · exact k.symbols.symm
  · have hback := k.productions.symm.map (Production.renumber π.symm)
    simpa [Function.comp_def] using hback
  · rw [k.empty, Symbol.renumber_symm_renumber]
  · rw [k.endMarker, Symbol.renumber_symm_renumber]
  · rw [k.start, Option.map_map, Symbol.renumber_symm_comp, Option.map_id, id]

theorem Renumbers.mem_productions (k : g.Renumbers π h) {p : Production}
    (hp : p ∈ g.productions) : p.renumber π ∈ h.productions :=
  k.productions.subset (List.mem_map_of_mem hp)

theorem Renumbers.mem_nonTerminals (k : g.Renumbers π h) {x : Symbol} :
    x.renumber π ∈ h.nonTerminals ↔ x ∈ g.nonTerminals := by
  have hlefts := (k.productions.map Production.left).mem_iff (a := x.renumber π)
  rw [nonTerminals, ← hlefts, nonTerminals]
  simp

theorem Renumbers.productionFor (k : g.Renumbers π h) (hh : h.WellFormed) {x : Symbol}
    {p : Production} (hp : g.productionFor x = some p) :
    h.productionFor (x.renumber π) = some (p.renumber π) := by
  obtain ⟨hmem, rfl⟩ := mem_of_productionFor hp
  exact hh.productionFor_left (k.mem_productions hmem)

end Grammar

namespace Family

variable {f f' : Family}

def LeAlong (π : Equiv.Perm Nat) (f f' : Family) : Prop :=
  ∀ x y, y ∈ f.get x → y.renumber π ∈ f'.get (x.renumber π)

theorem LeAlong.firstOf (hle : f.LeAlong π f') {empty y : Symbol} {xs : List Symbol}
    (hy : y ∈ f.firstOf empty xs) :
    y.renumber π ∈ f'.firstOf (empty.renumber π) (xs.map (Symbol.renumber π)) := by
  induction xs with
  | nil =>
    obtain rfl := mem_firstOf_nil.mp hy
    exact mem_firstOf_nil.mpr rfl
  | cons x rest ih =>
    rw [List.map_cons, mem_firstOf_cons]
    rcases mem_firstOf_cons.mp hy with ⟨hx, hne⟩ | ⟨hx, hrest⟩
    · exact Or.inl ⟨hle x y hx, fun he => hne (Symbol.renumber_inj.mp he)⟩
    · exact Or.inr ⟨hle x empty hx, ih hrest⟩

/-- The sets of one family are those of the other, renumbered. -/
structure Renumbers (π : Equiv.Perm Nat) (f f' : Family) : Prop where
  forth : f.LeAlong π f'
  back : f'.LeAlong π.symm f

theorem Renumbers.mem_get (k : f.Renumbers π f') {x y : Symbol} :
    y.renumber π ∈ f'.get (x.renumber π) ↔ y ∈ f.get x := by
  constructor
  · intro hy
    simpa using k.back _ _ hy
  · intro hy
    exact k.forth x y hy

theorem Renumbers.mem_firstOf (k : f.Renumbers π f') {empty y : Symbol} {xs : List Symbol} :
    y.renumber π ∈ f'.firstOf (empty.renumber π) (xs.map (Symbol.renumber π)) ↔
      y ∈ f.firstOf empty xs := by
  constructor
  · intro hy
    simpa using k.back.firstOf hy
  · intro hy
    exact k.forth.firstOf hy

theorem Renumbers.texts_perm (k : f.Renumbers π f') (x : Symbol) :
    ((f.get x).members.map Symbol.text).Perm
      ((f'.get (x.renumber π)).members.map Symbol.text) := by
  have hmembers : ((f.get x).members.map (Symbol.renumber π)).Perm
      (f'.get (x.renumber π)).members := by
    have hnodup := (f.get x).nodup.map (Symbol.renumber_injective (π := π))
    rw [List.perm_ext_iff_of_nodup hnodup (f'.get (x.renumber π)).nodup]
    intro y
    rw [List.mem_map, SymbolSet.mem_members]
    constructor
    · rintro ⟨z, hz, rfl⟩
      exact k.mem_get.mpr hz
    · intro hy
      refine ⟨y.renumber π.symm, ?_, Symbol.renumber_renumber_symm⟩
      rw [SymbolSet.mem_members, ← k.mem_get, Symbol.renumber_renumber_symm]
      exact hy
  simpa [Function.comp_def] using hmembers.map Symbol.text

end Family

namespace Solver

variable {g h : Grammar} {s s' : State} {b : Bool}

theorem first_leAlong (k : g.Renumbers π h) (hg : g.WellFormed) (hh : h.WellFormed)
    {f f' : Family} (hf : Solves g.FirstRule g.symbols.symbols b f)
    (hf' : Solves h.FirstRule h.symbols.symbols true f') : f.LeAlong π f' := by
  intro x y hy
  refine hf.least x y hy (fun x y => y.renumber π ∈ f'.get (x.renumber π)) ?_
  intro e he x hx y hrule
  apply hf'.closed rfl _ (k.symbols.mem hg.table hx)
  rcases hrule with ⟨hvar, rfl⟩ | ⟨hvar, p, hp, c, hc, hy⟩
  · exact Or.inl ⟨hvar, rfl⟩
  · refine Or.inr ⟨hvar, p.renumber π, k.productionFor hh hp, _, List.mem_map_of_mem hc, ?_⟩
    have hstring := Family.LeAlong.firstOf he hy
    rwa [← k.empty] at hstring

theorem follow_leAlong (k : g.Renumbers π h) {first first' f f' : Family}
    (hfirst : first.LeAlong π first')
    (hf : Solves (FollowRule g first true) g.nonTerminals b f)
    (hf' : Solves (FollowRule h first' true) h.nonTerminals true f') : f.LeAlong π f' := by
  intro x y hy
  refine hf.least x y hy (fun x y => y.renumber π ∈ f'.get (x.renumber π)) ?_
  intro e he x hx y hrule
  apply hf'.closed rfl _ (k.mem_nonTerminals.mpr hx)
  rcases hrule with ⟨hstart, rfl⟩ | ⟨p, hp, c, hc, before, rest, rfl, hy⟩
  · refine Or.inl ⟨?_, k.endMarker.symm⟩
    rw [k.start, hstart, Option.map_some]
  · refine Or.inr ⟨p.renumber π, k.mem_productions hp, _, List.mem_map_of_mem hc,
      before.map (Symbol.renumber π), rest.map (Symbol.renumber π), by simp, ?_⟩
    rw [RestRule, k.empty]
    rcases hy with ⟨hy, hne⟩ | ⟨hempty, hy⟩
    · exact Or.inl ⟨hfirst.firstOf hy, fun he => hne (Symbol.renumber_inj.mp he)⟩
    · exact Or.inr ⟨hfirst.firstOf hempty, he _ _ hy⟩

/-- The solver's sets do not depend on the order in which the grammar lists its symbols and
productions. -/
theorem Solved.renumbers (k : g.Renumbers π h) (hg : g.WellFormed) (hh : h.WellFormed)
    (hs : Solved g true s) (hs' : Solved h true s') :
    s.first.Renumbers π s'.first ∧ s.follow.Renumbers π s'.follow := by
  have hforth := first_leAlong k hg hh hs.first.solves hs'.first.solves
  have hback := first_leAlong k.symm hh hg hs'.first.solves hs.first.solves
  refine ⟨⟨hforth, hback⟩, ?_, ?_⟩
  · exact follow_leAlong k hforth hs.follow hs'.follow
  · exact follow_leAlong k.symm hback hs'.follow hs.follow

end Solver

end GrammarLab
