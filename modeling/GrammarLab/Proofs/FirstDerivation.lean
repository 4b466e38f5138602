import Mathlib
import GrammarLab.Grammar.Derivation
import GrammarLab.Proofs.First

/-!
# FIRST sets and derivations

A solution of the FIRST rules that is closed under them says exactly what a string of symbols can
begin with. It holds nothing else, because what a string can begin with obeys the rules too; it
holds all of it, because undoing a derivation step never loses a member of FIRST.
-/

namespace GrammarLab

namespace Candidate

@[simp] theorem body_append (us vs : List Symbol) : body (us ++ vs) = body us ++ body vs :=
  List.filter_append us vs

theorem body_cons_of_empty {x : Symbol} (hx : x.IsEmpty) (rest : List Symbol) :
    body (x :: rest) = body rest := by simp [body, hx]

theorem body_cons_of_not_empty {x : Symbol} (hx : ¬x.IsEmpty) (rest : List Symbol) :
    body (x :: rest) = x :: body rest := by simp [body, hx]

end Candidate

namespace Symbol

theorem IsTerminal.not_empty {x : Symbol} (h : x.IsTerminal) : ¬x.IsEmpty := by
  intro he
  exact absurd (h.symm.trans he) (by decide)

theorem IsVariable.not_empty {x : Symbol} (h : x.IsVariable) : ¬x.IsEmpty := by
  intro he
  exact absurd (h.symm.trans he) (by decide)

theorem IsVariable.not_terminal {x : Symbol} (h : x.IsVariable) : ¬x.IsTerminal := by
  intro ht
  exact absurd (h.symm.trans ht) (by decide)

theorem empty_or_terminal_of_not_variable {x : Symbol} (h : ¬x.IsVariable) :
    x.IsEmpty ∨ x.IsTerminal := by
  unfold IsVariable at h
  unfold IsEmpty IsTerminal
  cases hk : x.kind <;> simp_all

end Symbol

namespace Grammar

variable {g : Grammar}

/-- What a derived form can begin with. The empty symbol stands for the empty form. -/
def Begins (g : Grammar) (xs : List Symbol) (y : Symbol) : Prop :=
  (y.IsTerminal ∧ ∃ rest, g.Derives (Candidate.body xs) (y :: rest)) ∨
    (y = g.empty ∧ g.Derives (Candidate.body xs) [])

theorem Begins.terminal {xs : List Symbol} {y : Symbol} (h : g.Begins xs y) (hy : y ≠ g.empty) :
    y.IsTerminal ∧ ∃ rest, g.Derives (Candidate.body xs) (y :: rest) :=
  h.resolve_right fun he => hy he.1

theorem Begins.nullable (hg : g.WellFormed) {xs : List Symbol} (h : g.Begins xs g.empty) :
    g.Derives (Candidate.body xs) [] := by
  rcases h with ⟨ht, -⟩ | ⟨-, hnull⟩
  · exact absurd hg.empty_kind ht.not_empty
  · exact hnull

theorem Begins.of_derives {xs ys : List Symbol} {y : Symbol} (h : g.Begins ys y)
    (hd : g.Derives (Candidate.body xs) (Candidate.body ys)) : g.Begins xs y := by
  rcases h with ⟨ht, rest, hrest⟩ | ⟨he, hnull⟩
  · exact Or.inl ⟨ht, rest, hd.trans hrest⟩
  · exact Or.inr ⟨he, hd.trans hnull⟩

theorem Derives.forall_mem {P : Symbol → Prop}
    (hbody : ∀ p ∈ g.productions, ∀ c ∈ p.candidates, ∀ y ∈ c, ¬y.IsEmpty → P y)
    {xs ys : List Symbol} (h : g.Derives xs ys) (hxs : ∀ x ∈ xs, P x) : ∀ y ∈ ys, P y := by
  induction h with
  | refl => exact hxs
  | head hstep _ ih =>
    apply ih
    cases hstep with
    | step before after hp hv hc =>
      intro y hy
      rcases List.mem_append.mp hy with hy | hy
      · rcases List.mem_append.mp hy with hy | hy
        · exact hxs y (List.mem_append_left _ hy)
        · obtain ⟨hmem, hne⟩ := Candidate.mem_body.mp hy
          exact hbody _ hp _ hc y hmem hne
      · exact hxs y (List.mem_append_right _ (List.mem_cons_of_mem _ hy))

theorem Derives.mem_table (hg : g.WellFormed) {xs ys : List Symbol} (h : g.Derives xs ys)
    (hxs : ∀ x ∈ xs, x ∈ g.symbols.symbols) : ∀ y ∈ ys, y ∈ g.symbols.symbols :=
  h.forall_mem (fun p hp c hc y hy _ => hg.candidate_mem p hp c hc y hy) hxs

theorem Derives.eq_of_no_variable {xs ys : List Symbol} (h : g.Derives xs ys)
    (hxs : ∀ x ∈ xs, ¬x.IsVariable) : ys = xs := by
  cases h with
  | refl => rfl
  | head hstep _ =>
    cases hstep with
    | step before after hp hv hc =>
      exact absurd hv (hxs _ (List.mem_append_right _ List.mem_cons_self))

theorem Derives.eq_of_terminals {xs ys : List Symbol} (h : g.Derives xs ys)
    (hxs : ∀ x ∈ xs, x.IsTerminal) : ys = xs :=
  h.eq_of_no_variable fun x hx hv => hv.not_terminal (hxs x hx)

end Grammar

namespace Solver

variable {g : Grammar} {f : Family}

theorem begins_of_mem_firstOf (hg : g.WellFormed) (hf : ∀ x y, y ∈ f.get x → g.Begins [x] y)
    {xs : List Symbol} {y : Symbol} (hy : y ∈ f.firstOf g.empty xs) : g.Begins xs y := by
  induction xs generalizing y with
  | nil => exact Or.inr ⟨Family.mem_firstOf_nil.mp hy, .refl _⟩
  | cons x rest ih =>
    have hbody : Candidate.body (x :: rest) = Candidate.body [x] ++ Candidate.body rest :=
      Candidate.body_append [x] rest
    rcases Family.mem_firstOf_cons.mp hy with ⟨hx, hne⟩ | ⟨hx, hrest⟩
    · obtain ⟨ht, tail, hd⟩ := (hf x y hx).terminal hne
      refine Or.inl ⟨ht, tail ++ Candidate.body rest, ?_⟩
      rw [hbody]
      exact hd.append (.refl _)
    · have hnull := (hf x g.empty hx).nullable hg
      refine (ih hrest).of_derives ?_
      rw [hbody]
      exact hnull.append (.refl _)

theorem closes_begins (hg : g.WellFormed) :
    Closes g.FirstRule g.symbols.symbols fun x y => g.Begins [x] y := by
  intro f hf x hx y hy
  rcases hy with ⟨hv, rfl⟩ | ⟨hv, p, hp, c, hc, hy⟩
  · rcases Symbol.empty_or_terminal_of_not_variable hv with he | ht
    · refine Or.inr ⟨hg.empty_unique _ hx he, ?_⟩
      rw [Candidate.body_cons_of_empty he]
      exact .refl _
    · refine Or.inl ⟨ht, [], ?_⟩
      rw [Candidate.body_cons_of_not_empty ht.not_empty]
      exact .refl _
  · obtain ⟨hmem, rfl⟩ := Grammar.mem_of_productionFor hp
    refine (begins_of_mem_firstOf hg hf hy).of_derives ?_
    rw [Candidate.body_cons_of_not_empty hv.not_empty]
    exact .of_candidate hmem hv hc

theorem Solves.begins (hg : g.WellFormed) {fixpoint : Bool}
    (hf : Solves g.FirstRule g.symbols.symbols fixpoint f) {x y : Symbol} (hy : y ∈ f.get x) :
    g.Begins [x] y := hf.least x y hy _ (closes_begins hg)

theorem Solves.begins_string (hg : g.WellFormed) {fixpoint : Bool}
    (hf : Solves g.FirstRule g.symbols.symbols fixpoint f) {xs : List Symbol} {y : Symbol}
    (hy : y ∈ f.firstOf g.empty xs) : g.Begins xs y :=
  begins_of_mem_firstOf hg (fun _ _ hz => hf.begins hg hz) hy

theorem Solves.self_mem_get {fixpoint : Bool}
    (hf : Solves g.FirstRule g.symbols.symbols fixpoint f) {x : Symbol}
    (hx : x ∈ g.symbols.symbols) (hv : ¬x.IsVariable) : x ∈ f.get x :=
  hf.passed x hx x (Or.inl ⟨hv, rfl⟩)

theorem Solves.mem_firstOf_terminal (hg : g.WellFormed) {fixpoint : Bool}
    (hf : Solves g.FirstRule g.symbols.symbols fixpoint f) {x : Symbol}
    (hx : x ∈ g.symbols.symbols) (ht : x.IsTerminal) (rest : List Symbol) :
    x ∈ f.firstOf g.empty (x :: rest) ∧ x ≠ g.empty := by
  have hself := hf.self_mem_get hx fun hv => hv.not_terminal ht
  have hne := hg.ne_empty ht.not_empty
  exact ⟨Family.mem_firstOf_cons.mpr (Or.inl ⟨hself, hne⟩), hne⟩

theorem Solves.mem_get_terminal (hg : g.WellFormed) {fixpoint : Bool}
    (hf : Solves g.FirstRule g.symbols.symbols fixpoint f) {x y : Symbol}
    (hx : x ∈ g.symbols.symbols) (ht : x.IsTerminal) : y ∈ f.get x ↔ y = x := by
  constructor
  · intro hy
    have hstay : ∀ zs, g.Derives [x] zs → zs = [x] := fun zs hd =>
      hd.eq_of_terminals fun z hz => List.mem_singleton.mp hz ▸ ht
    have hbody : Candidate.body [x] = [x] := Candidate.body_cons_of_not_empty ht.not_empty []
    rcases hf.begins hg hy with ⟨-, rest, hd⟩ | ⟨-, hd⟩
    · rw [hbody] at hd
      exact (List.cons.inj (hstay _ hd)).1
    · rw [hbody] at hd
      exact absurd (hstay _ hd) (by simp)
  · rintro rfl
    exact hf.self_mem_get hx fun hv => hv.not_terminal ht

section Closed

variable (hg : g.WellFormed) (hf : Solves g.FirstRule g.symbols.symbols true f)

include hg hf

theorem mem_get_of_candidate {p : Production} (hp : p ∈ g.productions) (hv : p.left.IsVariable)
    {c : Candidate} (hc : c ∈ p.candidates) {y : Symbol} (hy : y ∈ f.firstOf g.empty c) :
    y ∈ f.get p.left :=
  hf.closed rfl _ (hg.left_mem p hp) y (Or.inr ⟨hv, p, hg.productionFor_left hp, c, hc, hy⟩)

theorem firstOf_of_body {c : Candidate} (hc : ∀ x ∈ c, x ∈ g.symbols.symbols) {y : Symbol}
    (hy : y ∈ f.firstOf g.empty c.body) : y ∈ f.firstOf g.empty c := by
  induction c with
  | nil => exact hy
  | cons x rest ih =>
    have hx := hc x List.mem_cons_self
    have hrest := ih fun z hz => hc z (List.mem_cons_of_mem _ hz)
    by_cases he : x.IsEmpty
    · rw [Candidate.body_cons_of_empty he] at hy
      obtain rfl := hg.empty_unique x hx he
      have hself := hf.self_mem_get hx fun hv => hv.not_empty he
      exact Family.mem_firstOf_cons.mpr (Or.inr ⟨hself, hrest hy⟩)
    · rw [Candidate.body_cons_of_not_empty he, Family.mem_firstOf_cons] at hy
      exact Family.mem_firstOf_cons.mpr (hy.imp_right (And.imp_right hrest))

/-- A derivation step backwards loses no member of FIRST. -/
theorem firstOf_of_produces {xs ys : List Symbol} (h : g.Produces xs ys) {y : Symbol}
    (hy : y ∈ f.firstOf g.empty ys) : y ∈ f.firstOf g.empty xs := by
  cases h with
  | @step p c before after hp hv hc =>
    have hbody : ∀ z ∈ f.firstOf g.empty c.body, z ∈ f.get p.left := fun z hz =>
      mem_get_of_candidate hg hf hp hv hc (firstOf_of_body hg hf (hg.candidate_mem p hp c hc) hz)
    rw [List.append_assoc, Family.mem_firstOf_append] at hy
    rw [Family.mem_firstOf_append]
    rcases hy with hbefore | ⟨hnull, hy⟩
    · exact Or.inl hbefore
    · refine Or.inr ⟨hnull, Family.mem_firstOf_cons.mpr ?_⟩
      rcases Family.mem_firstOf_append.mp hy with ⟨hy, hne⟩ | ⟨hy, hafter⟩
      · exact Or.inl ⟨hbody y hy, hne⟩
      · exact Or.inr ⟨hbody _ hy, hafter⟩

theorem firstOf_of_derives {xs ys : List Symbol} (h : g.Derives xs ys) {y : Symbol}
    (hy : y ∈ f.firstOf g.empty ys) : y ∈ f.firstOf g.empty xs := by
  induction h with
  | refl => exact hy
  | head hstep _ ih => exact firstOf_of_produces hg hf hstep (ih hy)

theorem mem_firstOf_of_begins {xs : List Symbol} (hxs : ∀ x ∈ xs, x ∈ g.symbols.symbols)
    {y : Symbol} (h : g.Begins xs y) : y ∈ f.firstOf g.empty xs := by
  apply firstOf_of_body hg hf hxs
  rcases h with ⟨ht, rest, hd⟩ | ⟨rfl, hd⟩
  · have htable := hd.mem_table hg (fun x hx => hxs x (Candidate.mem_body.mp hx).1)
    have hself := hf.mem_firstOf_terminal hg (htable y List.mem_cons_self) ht rest
    exact firstOf_of_derives hg hf hd hself.1
  · exact firstOf_of_derives hg hf hd (Family.mem_firstOf_nil.mpr rfl)

theorem mem_firstOf_iff_begins {xs : List Symbol} (hxs : ∀ x ∈ xs, x ∈ g.symbols.symbols)
    {y : Symbol} : y ∈ f.firstOf g.empty xs ↔ g.Begins xs y := by
  constructor
  · intro hy
    exact hf.begins_string hg hy
  · intro hb
    exact mem_firstOf_of_begins hg hf hxs hb

end Closed

end Solver

structure Grammar.IsFirstOf (g : Grammar) (xs : List Symbol) (found : SymbolSet) : Prop where
  terminal : ∀ t, t.IsTerminal →
    (t ∈ found ↔ ∃ rest, g.Derives (Candidate.body xs) (t :: rest))
  empty : g.empty ∈ found ↔ g.Derives (Candidate.body xs) []
  nothing_else : ∀ y ∈ found, y.IsTerminal ∨ y = g.empty

theorem Grammar.isFirstOf_of_begins {g : Grammar} (hg : g.WellFormed) {xs : List Symbol}
    {found : SymbolSet} (h : ∀ y, y ∈ found ↔ g.Begins xs y) : g.IsFirstOf xs found := by
  constructor
  · intro t ht
    rw [h]
    constructor
    · intro hb
      exact (hb.terminal (hg.ne_empty ht.not_empty)).2
    · intro hd
      exact Or.inl ⟨ht, hd⟩
  · rw [h]
    constructor
    · intro hb
      exact hb.nullable hg
    · intro hd
      exact Or.inr ⟨rfl, hd⟩
  · intro y hy
    exact ((h y).mp hy).imp And.left And.left

namespace Solver

/-- Every question about FIRST is answered, and the answer is exact. A single symbol is answered
like the string of it, an undefined variable by the empty set, the empty string by the empty symbol
alone. -/
structure AnswersFirst (g : Grammar) (s : State) : Prop where
  strings : ∀ xs : List Symbol, (∀ x ∈ xs, x ∈ g.symbols.symbols) →
    ∃ found t, (firstOfString g xs).run s = .ok found t ∧ g.IsFirstOf xs found
  symbols : ∀ x ∈ g.symbols.symbols, ∃ single t whole u,
    (getFirst g x).run s = .ok single t ∧ (firstOfString g [x]).run s = .ok whole u ∧
      ∀ y, y ∈ single ↔ y ∈ whole
  undefined : ∀ x ∈ g.symbols.symbols, x.IsVariable → x ∉ g.nonTerminals →
    ∃ found t, (getFirst g x).run s = .ok found t ∧ ∀ y, y ∉ found
  nothing : ∃ found t, (firstOfString g []).run s = .ok found t ∧ ∀ y, y ∈ found ↔ y = g.empty

/-- Iterated passes make FIRST exact for derivations, from whatever state they start. -/
theorem computeFirst_exact {config : GrammarConfig} {text : String} {g : Grammar}
    (hfix : config.fixpoint = true) (hread : Grammar.read config text = .ok g) (s : State) :
    ∃ t, (computeFirst g config.fixpoint).run s = .ok () t ∧ AnswersFirst g t := by
  have hg := Grammar.wellFormed_of_read hread
  obtain ⟨_, t, hrun, hsolved, -⟩ := ends_computeFirst hg config.fixpoint s
  rw [hfix] at hsolved
  have hkeyed := hsolved.solves.keyed
  refine ⟨t, hrun, fun xs hxs => ?_, fun x hx => ?_, fun x hx hv hundefined => ?_, ?_⟩
  · obtain ⟨found, u, hu, rfl, -⟩ := hsolved.ends_firstOfString hxs
    exact ⟨_, u, hu, Grammar.isFirstOf_of_begins hg fun y =>
      mem_firstOf_iff_begins hg hsolved.solves hxs⟩
  · obtain ⟨single, u, hu, rfl, -⟩ := ends_getFirst hkeyed hx
    have hwhole : ∀ z ∈ [x], z ∈ g.symbols.symbols := fun z hz => List.mem_singleton.mp hz ▸ hx
    obtain ⟨whole, v, hv, rfl, -⟩ := hsolved.ends_firstOfString hwhole
    exact ⟨_, u, _, v, hu, hv, fun y => Family.mem_firstOf_singleton.symm⟩
  · obtain ⟨found, u, hu, rfl, -⟩ := ends_getFirst hkeyed hx
    refine ⟨_, u, hu, fun y hy => ?_⟩
    have hclosed : Closes g.FirstRule g.symbols.symbols
        fun z _ => z.IsVariable → z ∈ g.nonTerminals := by
      rintro f - z - y (⟨hz, -⟩ | ⟨-, p, hp, -⟩) hvar
      · exact absurd hvar hz
      · obtain ⟨hmem, rfl⟩ := Grammar.mem_of_productionFor hp
        exact List.mem_map_of_mem hmem
    exact hundefined (hsolved.solves.least x y hy _ hclosed hv)
  · have hnone : ∀ z ∈ ([] : List Symbol), z ∈ g.symbols.symbols :=
      fun z hz => absurd hz List.not_mem_nil
    obtain ⟨found, u, hu, rfl, -⟩ := hsolved.ends_firstOfString hnone
    exact ⟨_, u, hu, fun y => Family.mem_firstOf_nil⟩

/-- Hidden left recursion behind a variable that can be empty. -/
theorem computeFirst_exact_hidden_recursion :
    ∃ g t, Grammar.read {} "S->ASb|c\nA->$|a" = .ok g ∧
      (computeFirst g true).run {} = .ok () t ∧ AnswersFirst g t := by
  obtain ⟨g, hg, -⟩ : ∃ g, Grammar.read {} "S->ASb|c\nA->$|a" = .ok g ∧ True := by decide +kernel
  obtain ⟨t, ht, hanswers⟩ := computeFirst_exact rfl hg {}
  exact ⟨g, t, hg, ht, hanswers⟩

end Solver

end GrammarLab
