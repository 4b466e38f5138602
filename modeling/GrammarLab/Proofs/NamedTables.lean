import Mathlib
import GrammarLab.Proofs.FirstSights
import GrammarLab.Symbol.Registry

/-!
# Histories of named symbol tables

A table is known from its history alone. It holds the texts sighted since it was last emptied, and
before that in the tables it was copied from, each with the kind of its first sight. No command
changes a table other than the one it is meant for. Within one table, and also between a table that
stands still and a copy of it that grows, symbols of one index are symbols of one text.
-/

namespace GrammarLab

namespace SymbolTable

variable {t u : SymbolTable} {text : String} {x y : Symbol}

theorem WellFormed.lookup_eq_some_iff (ht : t.WellFormed) :
    t.lookup text = some x ↔ x ∈ t.symbols ∧ x.text = text := by
  constructor
  · exact text_of_lookup
  · rintro ⟨hx, rfl⟩
    exact ht.lookup_text hx

theorem WellFormed.sameIndex_iff (ht : t.WellFormed) (hx : x ∈ t.symbols) (hy : y ∈ t.symbols) :
    x.SameIndex y ↔ x.text = y.text := by
  have hindices : (t.symbols.map Symbol.index).Nodup := ht.indices ▸ List.nodup_range
  constructor
  · intro h
    rw [List.inj_on_of_nodup_map hindices hx hy h]
  · intro h
    rw [eq_of_text ht hx hy h]
    rfl

theorem isPrefix_intern (t : SymbolTable) (text : String) (kind : Kind) :
    t.symbols <+: (t.intern text kind).2.symbols := by
  rw [intern]
  split
  · exact List.prefix_refl _
  · exact List.prefix_append _ _

theorem WellFormed.internSights (ht : t.WellFormed) (sights : List (String × Kind)) :
    (t.internSights sights).WellFormed := by
  induction sights generalizing t with
  | nil => exact ht
  | cons s rest ih => exact ih (ht.intern s.1 s.2)

/-- What a table is after sights of texts, each with the kind that was asked for. -/
structure Holds (sights : List (String × Kind)) (t : SymbolTable) : Prop where
  indices : t.symbols.map Symbol.index = List.range t.size
  texts : (t.symbols.map Symbol.text).Nodup
  lookup : ∀ text x, t.lookup text = some x ↔ x ∈ t.symbols ∧ x.text = text
  kinds : ∀ text, t.kindAt text = sights.lookup text

theorem holds_internSights (sights : List (String × Kind)) :
    Holds sights (internSights {} sights) := by
  have hnumbered := wellFormed_empty.internSights sights
  refine ⟨hnumbered.indices, hnumbered.texts,
    fun _ _ => hnumbered.lookup_eq_some_iff, fun text => ?_⟩
  rw [kindAt_internSights]
  rfl

end SymbolTable

namespace Registry

def after (r : Registry) (history : List (String × Command)) : Registry :=
  ((r.runAll history).getLast?.map Prod.snd).getD r

def Command.changes (name : String) : Command → Option String
  | .intern _ _ => some name
  | .reset => some name
  | .copy target => some target
  | _ => none

def Command.Discards (name : String) (table : String) : Command → Prop
  | .reset => name = table
  | .copy target => target = table
  | _ => False

instance (name table : String) : (c : Command) → Decidable (c.Discards name table)
  | .reset => inferInstanceAs (Decidable (name = table))
  | .copy target => inferInstanceAs (Decidable (target = table))
  | .intern _ _ | .lookup _ | .contains _ | .kindOf _ | .same _ _ _ =>
    inferInstanceAs (Decidable False)

/-- One more command. Interning is a sight, and a copy inherits all sights. -/
def Command.see (name : String) (seen : String → List (String × Kind)) :
    Command → String → List (String × Kind)
  | .intern text kind => Function.update seen name (seen name ++ [(text, kind)])
  | .reset => Function.update seen name []
  | .copy target => Function.update seen target (seen name)
  | _ => seen

/-- The sights of each table since it was last empty, in order. -/
def sights (history : List (String × Command)) : String → List (String × Kind) :=
  history.foldl (fun seen e => e.2.see e.1 seen) fun _ => []

variable {r : Registry} {name other target : String} {c : Command}
  {history later : List (String × Command)}

@[simp] theorem after_nil (r : Registry) : r.after [] = r := rfl

@[simp] theorem after_cons (r : Registry) (e : String × Command)
    (history : List (String × Command)) :
    r.after (e :: history) = (r.run e.1 e.2).2.after history := by
  rw [after, after, runAll, List.getLast?_cons]
  cases ((r.run e.1 e.2).2.runAll history).getLast? <;> rfl

theorem after_append (r : Registry) (history later : List (String × Command)) :
    r.after (history ++ later) = (r.after history).after later := by
  induction history generalizing r with
  | nil => rfl
  | cons e history ih => simp [ih]

theorem table_run_of_ne (r : Registry) (h : c.changes name ≠ some other) :
    (r.run name c).2.table other = r.table other := by
  cases c with
  | intern text kind =>
    have hne : other ≠ name := fun e => h (congrArg some e.symm)
    simp [run, hne]
  | reset =>
    have hne : other ≠ name := fun e => h (congrArg some e.symm)
    simp [run, hne]
  | copy target =>
    have hne : other ≠ target := fun e => h (congrArg some e.symm)
    simp [run, hne]
  | _ => rfl

theorem table_run {seen : String → List (String × Kind)}
    (h : ∀ name, r.table name = SymbolTable.internSights {} (seen name)) (other : String) :
    (r.run name c).2.table other = SymbolTable.internSights {} (c.see name seen other) := by
  cases c with
  | intern text kind =>
    by_cases hother : other = name
    · subst hother
      simp [run, Command.see, h, SymbolTable.internSights]
    · simp [run, Command.see, hother, h]
  | reset =>
    by_cases hother : other = name
    · subst hother
      simp [run, Command.see, SymbolTable.internSights]
    · simp [run, Command.see, hother, h]
  | copy target =>
    by_cases hother : other = target
    · subst hother
      simp [run, Command.see, h]
    · simp [run, Command.see, hother, h]
  | _ => exact h other

theorem sights_append_singleton (history : List (String × Command)) (name : String) (c : Command) :
    sights (history ++ [(name, c)]) = c.see name (sights history) := by
  rw [sights, List.foldl_append]
  rfl

theorem table_after (history : List (String × Command)) (name : String) :
    (after {} history).table name = SymbolTable.internSights {} (sights history name) := by
  induction history using List.reverseRecOn generalizing name with
  | nil => rfl
  | append_singleton history e ih =>
    rw [after_append, after_cons, after_nil, sights_append_singleton]
    exact table_run ih name

theorem isPrefix_run (r : Registry) (h : ¬c.Discards name other) :
    (r.table other).symbols <+: ((r.run name c).2.table other).symbols := by
  by_cases hchanges : c.changes name = some other
  · cases c with
    | intern text kind =>
      obtain rfl : name = other := Option.some.inj hchanges
      simpa [run] using SymbolTable.isPrefix_intern (r.table name) text kind
    | reset => exact absurd (Option.some.inj hchanges) h
    | copy target => exact absurd (Option.some.inj hchanges) h
    | _ => cases hchanges
  · rw [table_run_of_ne r hchanges]

theorem isPrefix_after (r : Registry) (h : ∀ e ∈ later, ¬e.2.Discards e.1 other) :
    (r.table other).symbols <+: ((r.after later).table other).symbols := by
  induction later generalizing r with
  | nil => exact List.prefix_refl _
  | cons e later ih =>
    rw [after_cons]
    refine (isPrefix_run r (h e List.mem_cons_self)).trans ?_
    exact ih _ fun d hd => h d (List.mem_cons_of_mem _ hd)

/-- A table is copied. Later commands discard neither the table nor its copy, and the table itself
does not grow. -/
structure GrowsCopy (r : Registry) (name target : String) (later : List (String × Command))
    (q : Registry) : Prop where
  reached : q = r.after ((name, .copy target) :: later)
  kept : ∀ e ∈ later, ¬e.2.Discards e.1 name ∧ ¬e.2.Discards e.1 target
  size_eq : (q.table name).size = (r.table name).size

theorem GrowsCopy.isPrefix {q : Registry} (h : GrowsCopy r name target later q) :
    (q.table name).symbols <+: (q.table target).symbols := by
  have hcopied : ∀ table, table = name ∨ table = target →
      (r.run name (.copy target)).2.table table = r.table name := by
    rintro table (rfl | rfl) <;> simp [run]
  have hreached : q = (r.run name (.copy target)).2.after later :=
    h.reached.trans (after_cons r _ _)
  have hname : (r.table name).symbols <+: (q.table name).symbols := by
    rw [← hcopied name (.inl rfl), hreached]
    exact isPrefix_after _ fun e he => (h.kept e he).1
  have htarget : (r.table name).symbols <+: (q.table target).symbols := by
    rw [← hcopied target (.inr rfl), hreached]
    exact isPrefix_after _ fun e he => (h.kept e he).2
  rwa [← hname.eq_of_length h.size_eq.symm]

/-- Tables at any moment of any history of commands. -/
theorem tables_after (history : List (String × Command)) :
    (∀ name, SymbolTable.Holds (sights history name) ((after {} history).table name)) ∧
    (∀ name c other, c.changes name ≠ some other →
      ((after {} history).run name c).2.table other = (after {} history).table other) ∧
    ∀ name target later q, GrowsCopy (after {} history) name target later q →
      ∀ x ∈ (q.table name).symbols ++ (q.table target).symbols,
        ∀ y ∈ (q.table name).symbols ++ (q.table target).symbols,
          (x.SameIndex y ↔ x.text = y.text) := by
  refine ⟨fun name => ?_, fun name c other h => table_run_of_ne _ h, ?_⟩
  · rw [table_after]
    exact SymbolTable.holds_internSights _
  · intro name target later q h x hx y hy
    have hcopy : (q.table target).WellFormed := by
      rw [h.reached, ← after_append, table_after]
      exact SymbolTable.wellFormed_empty.internSights _
    have hmem : ∀ z ∈ (q.table name).symbols ++ (q.table target).symbols,
        z ∈ (q.table target).symbols := by
      intro z hz
      rcases List.mem_append.mp hz with hz | hz
      · exact h.isPrefix.subset hz
      · exact hz
    exact hcopy.sameIndex_iff (hmem x hx) (hmem y hy)

/-- A symbol that is new to the copy takes a number that the table has not given. -/
theorem tables_after_new_in_copy :
    let history := [("grammar", .intern "S" .variable), ("grammar", .intern "a" .terminal)]
    let later := [("input", .intern "a" .variable), ("input", .intern "b" .terminal)]
    let q := (after {} history).after (("grammar", .copy "input") :: later)
    ((after {} history).run "grammar" (.copy "input")).2.table "grammar" =
        (after {} history).table "grammar" ∧
      GrowsCopy (after {} history) "grammar" "input" later q ∧
      (q.table "input").symbols.map Symbol.kind = [.variable, .terminal, .terminal] ∧
      ∀ x ∈ (q.table "grammar").symbols ++ (q.table "input").symbols,
        ∀ y ∈ (q.table "grammar").symbols ++ (q.table "input").symbols,
          (x.SameIndex y ↔ x.text = y.text) := by
  intro history later q
  have hgrows : GrowsCopy (after {} history) "grammar" "input" later q :=
    ⟨rfl, by decide, by decide +kernel⟩
  have hother := (tables_after history).2.1 "grammar" (.copy "input") "grammar" (by decide)
  exact ⟨hother, hgrows, by decide +kernel, (tables_after history).2.2 _ _ _ _ hgrows⟩

end Registry

end GrammarLab
