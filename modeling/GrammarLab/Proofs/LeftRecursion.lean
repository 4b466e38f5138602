import Mathlib
import GrammarLab.Proofs.DepthFirst
import GrammarLab.Proofs.Input
import GrammarLab.Proofs.Table

/-!
# Halting without left recursion

A symbol begins with another if one of its candidates brings the other to the front once the
symbols before it have been rewritten to nothing. Where nothing begins with itself, directly or
through others, the machine halts on every configuration: whatever the cells of its table choose,
a symbol is either matched, or stuck, or replaced by symbols it begins with. Conflicts and the
exactness of FIRST and FOLLOW play no part.
-/

namespace GrammarLab

namespace Grammar

/-- A left symbol of any kind may be rewritten, as on the stack of the machine. -/
def BeginsWith (g : Grammar) (x y : Symbol) : Prop :=
  ∃ p ∈ g.productions, p.left = x ∧ ∃ c ∈ p.candidates, ∃ before after,
    Candidate.body c = before ++ y :: after ∧ ∀ z ∈ before, g.Rewrites [z] []

def LeftRecursive (g : Grammar) (x : Symbol) : Prop := Relation.TransGen g.BeginsWith x x

variable {g : Grammar}

theorem BeginsWith.left_mem {x y : Symbol} (h : g.BeginsWith x y) : x ∈ g.nonTerminals := by
  obtain ⟨p, hp, rfl, -⟩ := h
  exact List.mem_map_of_mem hp

theorem wellFounded_beginsWith (h : ∀ x, ¬g.LeftRecursive x) :
    WellFounded (Function.swap g.BeginsWith) := by
  have horder : IsStrictOrder Symbol (Relation.TransGen (Function.swap g.BeginsWith)) :=
    { irrefl := fun x hx => h x (Relation.transGen_swap.mp hx)
      trans := fun _ _ _ hxy hyz => hxy.trans hyz }
  have hlefts : Set.WellFoundedOn {x | x ∈ g.nonTerminals}
      (Relation.TransGen (Function.swap g.BeginsWith)) :=
    (List.finite_toSet g.nonTerminals).wellFoundedOn
  have hother : ∀ x, x ∉ g.nonTerminals → Acc (Function.swap g.BeginsWith) x :=
    fun x hx => ⟨x, fun _ hy => absurd hy.left_mem hx⟩
  refine ⟨fun x => ?_⟩
  by_cases hx : x ∈ g.nonTerminals
  · refine hlefts.induction hx ?_
    intro y _ ih
    refine ⟨y, fun z hz => ?_⟩
    by_cases hleft : z ∈ g.nonTerminals
    · exact ih z hleft (.single hz)
    · exact hother z hleft
  · exact hother x hx

/-- The symbols that a string can begin with once listed symbols before them are gone. -/
def front (vanishing : List Symbol) : List Symbol → List Symbol
  | [] => []
  | x :: rest => if x ∈ vanishing then x :: front vanishing rest else [x]

theorem mem_front {vanishing before after : List Symbol} {x : Symbol}
    (h : ∀ z ∈ before, z ∈ vanishing) : x ∈ front vanishing (before ++ x :: after) := by
  induction before with
  | nil =>
    rw [List.nil_append, front]
    split <;> exact List.mem_cons_self
  | cons z before ih =>
    obtain ⟨hz, hbefore⟩ := List.forall_mem_cons.mp h
    rw [List.cons_append, front, if_pos hz]
    exact List.mem_cons_of_mem _ (ih hbefore)

/-- A certificate that can be checked: all symbols that can be rewritten to nothing are listed, and
a number falls from each left symbol to the symbols its candidates can begin with. -/
structure Ranked (g : Grammar) (vanishing : List Symbol) (rank : Symbol → Nat) : Prop where
  closed : ∀ p ∈ g.productions, ∀ c ∈ p.candidates,
    (∀ z ∈ Candidate.body c, z ∈ vanishing) → p.left ∈ vanishing
  falls : ∀ p ∈ g.productions, ∀ c ∈ p.candidates,
    ∀ y ∈ front vanishing (Candidate.body c), rank y < rank p.left

instance (g : Grammar) (vanishing : List Symbol) (rank : Symbol → Nat) :
    Decidable (g.Ranked vanishing rank) :=
  decidable_of_iff (_ ∧ _) ⟨fun h => ⟨h.1, h.2⟩, fun h => ⟨h.closed, h.falls⟩⟩

section Ranked

variable {vanishing : List Symbol} {rank : Symbol → Nat}

theorem Ranked.mem_of_rewrites (h : g.Ranked vanishing rank) {xs : List Symbol}
    (hxs : g.Rewrites xs []) : ∀ x ∈ xs, x ∈ vanishing := by
  generalize hempty : ([] : List Symbol) = ys at hxs
  induction hxs with
  | refl => exact fun x hx => absurd (hempty ▸ hx) List.not_mem_nil
  | @head p c _ before after hp hc _ ih =>
    have hform := ih hempty
    simp only [List.forall_mem_append] at hform
    simp only [List.forall_mem_append, List.forall_mem_cons]
    exact ⟨hform.1.1, h.closed p hp c hc hform.1.2, hform.2⟩

theorem Ranked.lt_of_beginsWith (h : g.Ranked vanishing rank) {x y : Symbol}
    (hxy : g.BeginsWith x y) : rank y < rank x := by
  obtain ⟨p, hp, rfl, c, hc, before, after, hbody, hbefore⟩ := hxy
  apply h.falls p hp c hc
  rw [hbody]
  exact mem_front fun z hz => h.mem_of_rewrites (hbefore z hz) z (List.mem_singleton_self z)

theorem Ranked.not_leftRecursive (h : g.Ranked vanishing rank) (x : Symbol) :
    ¬g.LeftRecursive x :=
  Solver.not_transGen_of_rank rank (fun _ _ => h.lt_of_beginsWith) x

end Ranked

end Grammar

namespace ParsingTable

variable {g : Grammar} {t : ParsingTable} {e x a : Symbol} {remaining rest : List Symbol}

/-- The machine halts with the symbol on top of any stack. Only where the symbol can be rewritten
to nothing may the stack below come to light, so only then does it have to be one to halt on. -/
def Settles (t : ParsingTable) (e : Symbol) (g : Grammar) (remaining : List Symbol) (x : Symbol) :
    Prop :=
  ∀ below, (g.Rewrites [x] [] → t.Halts e ⟨below, remaining⟩) → t.Halts e ⟨x :: below, remaining⟩

theorem halts_of_settles {ys below : List Symbol}
    (hsettles : ∀ before y after, ys = before ++ y :: after → (∀ z ∈ before, g.Rewrites [z] []) →
      t.Settles e g remaining y)
    (hbelow : g.Rewrites ys [] → t.Halts e ⟨below, remaining⟩) :
    t.Halts e ⟨ys ++ below, remaining⟩ := by
  induction ys with
  | nil => exact hbelow (.refl _)
  | cons y ys ih =>
    have hy : t.Settles e g remaining y :=
      hsettles [] y ys rfl fun z hz => absurd hz List.not_mem_nil
    apply hy
    intro hvanishes
    apply ih
    · intro before z after hsplit hbefore
      refine hsettles (y :: before) z after (congrArg (y :: ·) hsplit) ?_
      exact List.forall_mem_cons.mpr ⟨hvanishes, hbefore⟩
    · intro hrest
      exact hbelow ((hrest.cons y).trans hvanishes)

section Cells

variable (hcells : ∀ x a c, t.lookup x a = some c →
  ∃ p ∈ g.productions, p.left = x ∧ c ∈ p.candidates)

include hcells

theorem settles_of_beginsWith
    (hmatched : ∀ above, t.Halts e ⟨above, rest⟩)
    (hbegins : ∀ y, g.BeginsWith x y → t.Settles e g (a :: rest) y) :
    t.Settles e g (a :: rest) x := by
  intro below hbelow
  rcases t.move_cases e ⟨x :: below, a :: rest⟩ with
    ⟨_, _, _, hk, hterminal, -⟩ | ⟨_, _, c, _, _, hk, hmatch, hcell, -⟩ | ⟨hk, -⟩ | ⟨cause, hmove⟩
  · cases hk
    exact .consume hterminal (hmatched below)
  · cases hk
    obtain ⟨p, hp, rfl, hc⟩ := hcells _ _ _ hcell
    refine .derive hmatch hcell (halts_of_settles (g := g) ?_ ?_)
    · intro before y after hsplit hbefore
      exact hbegins y ⟨p, hp, rfl, c, hc, before, after, hsplit, hbefore⟩
    · intro hbody
      exact hbelow (.head [] [] hp hc (by simpa using hbody))
  · cases hk
  · exact ⟨_, .stuck hmove⟩

theorem halts_of_not_leftRecursive (hacyclic : ∀ x, ¬g.LeftRecursive x) (k : Configuration) :
    t.Halts e k := by
  refine halts_of_top (fun x a below rest hmatched hbelow => ?_) k
  -- The stack below grows with each replacement, so the induction is on the symbol alone.
  have hsettles : t.Settles e g (a :: rest) x := by
    induction x using (Grammar.wellFounded_beginsWith hacyclic).induction with
    | _ x ih => exact settles_of_beginsWith hcells hmatched ih
  exact hsettles below fun _ => hbelow

end Cells

theorem not_halts_of_cell {c : Candidate} {tail : List Symbol}
    (hmatch : ¬(x.IsTerminal ∧ x = a)) (hcell : t.lookup x a = some c) (hc : c.body = x :: tail)
    (below : List Symbol) : ¬t.Halts e ⟨x :: below, a :: rest⟩ := by
  rintro ⟨r, hr⟩
  generalize hk : (⟨x :: below, a :: rest⟩ : Configuration) = k at hr
  induction hr generalizing below with
  | consume hs =>
    cases hk
    exact hmatch ⟨hs, rfl⟩
  | derive _ hlookup _ ih =>
    cases hk
    obtain rfl : c = _ := Option.some.inj (hcell.symm.trans hlookup)
    -- The same symbol is on top again, over a stack that may have grown.
    exact ih (tail ++ _) (by rw [hc]; rfl)
  | accept => cases hk
  | stuck hmove =>
    subst hk
    rw [move_derive hmatch hcell] at hmove
    cases hmove

end ParsingTable

/-- Every parse ends if no symbol is left recursive, in either mode of the solver and whatever
conflicts the table has. -/
theorem Analysis.parser_ends {config : GrammarConfig} {text : String} {g : Grammar}
    (hread : Grammar.read config text = .ok g) (hacyclic : ∀ x, ¬g.LeftRecursive x) :
    ∃ a, Analysis.load config text = .ok a ∧ a.grammar = g ∧
      ∀ input, ∃ limit r, a.parser.parse limit input = some r := by
  obtain ⟨a, hload, -, hgrammar, -, htable⟩ := Analysis.exists_load hread
  refine ⟨a, hload, hgrammar, fun input => ?_⟩
  by_cases hend : a.parser.EndsWithMarker input.toList
  · have hcells : ∀ x b c, a.table.lookup x b = some c →
        ∃ p ∈ g.productions, p.left = x ∧ c ∈ p.candidates := by
      intro x b c hcell
      rw [htable] at hcell
      obtain ⟨p, hp, hleft, hc, -⟩ := Solver.selecting_of_lookup hcell
      exact ⟨p, hp, hleft, hc⟩
    obtain ⟨r, hr⟩ := ParsingTable.halts_of_not_leftRecursive hcells hacyclic
      (e := a.parser.grammar.endMarker) (a.parser.initial input.toList)
    obtain ⟨limit, hparse⟩ := Parser.exists_parse_of_runs hend hr
    exact ⟨limit, _, hparse⟩
  · exact ⟨0, _, if_neg hend⟩

/-- One pass of the solver, a conflict, a candidate that begins with a variable that can be empty,
and a terminal with a production of its own. -/
theorem Analysis.parser_ends_one_pass :
    ∃ g a, Grammar.read { fixpoint := false } "S->Aa|aS|a\nA->$|bA\na->b" = .ok g ∧
      (∀ x, ¬g.LeftRecursive x) ∧
      Analysis.load { fixpoint := false } "S->Aa|aS|a\nA->$|bA\na->b" = .ok a ∧
      a.table.conflicts ≠ [] ∧ ∀ input, ∃ limit r, a.parser.parse limit input = some r := by
  obtain ⟨g, hg, hranked⟩ : ∃ g,
      Grammar.read { fixpoint := false } "S->Aa|aS|a\nA->$|bA\na->b" = .ok g ∧
      g.Ranked [⟨2, "A", .variable⟩] (fun x => ["b", "a", "A", "S"].idxOf x.text) := by
    decide +kernel
  obtain ⟨a, ha, -, hends⟩ := parser_ends hg hranked.not_leftRecursive
  obtain ⟨b, hb, hconflicts⟩ : ∃ b,
      Analysis.load { fixpoint := false } "S->Aa|aS|a\nA->$|bA\na->b" = .ok b ∧
      b.table.conflicts ≠ [] := by decide +kernel
  obtain rfl : b = a := Except.ok.inj (hb.symm.trans ha)
  exact ⟨g, b, hg, hranked.not_leftRecursive, hb, hconflicts, hends⟩

/-- A unit rule is enough to keep the machine busy for ever. -/
theorem Analysis.parser_loops_on_unit_rule :
    ∃ a, Analysis.load {} "S->a|S" = .ok a ∧ ∀ limit, a.parser.parse limit "a#" = none := by
  obtain ⟨a, ha, hend, hinitial, hcell⟩ : ∃ a, Analysis.load {} "S->a|S" = .ok a ∧
      a.parser.EndsWithMarker "a#".toList ∧
      a.parser.initial "a#".toList =
        ⟨[⟨1, "S", .variable⟩], [⟨2, "a", .terminal⟩, a.grammar.endMarker]⟩ ∧
      a.table.lookup ⟨1, "S", .variable⟩ ⟨2, "a", .terminal⟩ = some [⟨1, "S", .variable⟩] := by
    decide +kernel
  refine ⟨a, ha, fun limit => ?_⟩
  cases hparse : a.parser.parse limit "a#" with
  | none => rfl
  | some r =>
    obtain ⟨run, hrun, -⟩ := Parser.runs_of_parse hend hparse
    rw [hinitial] at hrun
    exact absurd ⟨run, hrun⟩ (ParsingTable.not_halts_of_cell (by decide) hcell rfl [])

end GrammarLab
