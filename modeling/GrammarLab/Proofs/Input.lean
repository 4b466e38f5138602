import Mathlib
import GrammarLab.Parse
import GrammarLab.Proofs.Reading
import GrammarLab.Proofs.Run

/-!
# Prepared inputs

The symbols of an input spell it, and in the table extended by them they are the only ones that do.
A parse of an input that ends with the end marker is a run from its symbols.
-/

namespace GrammarLab

theorem eq_of_map_eq {α β : Type} {f : α → β} {P : α → Prop}
    (hf : ∀ a b, P a → P b → f a = f b → a = b) {xs ys : List α} (hxs : ∀ x ∈ xs, P x)
    (hys : ∀ y ∈ ys, P y) (e : xs.map f = ys.map f) : xs = ys := by
  induction xs generalizing ys with
  | nil => exact (List.map_eq_nil_iff.mp e.symm).symm
  | cons x xs ih =>
    cases ys with
    | nil => cases e
    | cons y ys =>
      obtain ⟨hhead, htail⟩ := List.cons.inj e
      have hxy : x = y := hf x y (hxs x List.mem_cons_self) (hys y List.mem_cons_self) hhead
      have hrest : xs = ys := ih (fun z hz => hxs z (List.mem_cons_of_mem _ hz))
        (fun z hz => hys z (List.mem_cons_of_mem _ hz)) htail
      rw [hxy, hrest]

namespace SymbolTable

variable {t : SymbolTable} {kind : Kind}

theorem WellFormed.internAll (h : t.WellFormed) (kind : Kind) (texts : List String) :
    (t.internAll kind texts).2.WellFormed := by
  induction texts generalizing t with
  | nil => exact h
  | cons text rest ih => exact ih (h.intern text kind)

theorem mem_internAll_of_mem {texts : List String} {x : Symbol} (h : x ∈ t.symbols) :
    x ∈ (t.internAll kind texts).2.symbols := by
  induction texts generalizing t with
  | nil => exact h
  | cons text rest ih => exact ih (mem_intern_of_mem h)

theorem internAll_mem {texts : List String} :
    ∀ x ∈ (t.internAll kind texts).1, x ∈ (t.internAll kind texts).2.symbols := by
  induction texts generalizing t with
  | nil => exact fun x hx => absurd hx List.not_mem_nil
  | cons text rest ih =>
    have hfirst : (t.intern text kind).1 ∈ ((t.intern text kind).2.internAll kind rest).2.symbols :=
      mem_internAll_of_mem intern_mem
    intro x hx
    rcases List.mem_cons.mp hx with rfl | hx
    · exact hfirst
    · exact ih x hx

theorem map_text_internAll (texts : List String) :
    (t.internAll kind texts).1.map Symbol.text = texts := by
  induction texts generalizing t with
  | nil => rfl
  | cons text rest ih =>
    have hfirst : (t.intern text kind).1.text = text := text_intern
    exact congrArg₂ List.cons hfirst ih

theorem eq_of_map_text (h : t.WellFormed) {xs ys : List Symbol} (hxs : ∀ x ∈ xs, x ∈ t.symbols)
    (hys : ∀ y ∈ ys, y ∈ t.symbols) (e : xs.map Symbol.text = ys.map Symbol.text) : xs = ys :=
  eq_of_map_eq (fun _ _ hx hy htext => eq_of_text h hx hy htext) hxs hys e

theorem isPrefix_of_map_text (h : t.WellFormed) {xs ys : List Symbol}
    (hxs : ∀ x ∈ xs, x ∈ t.symbols) (hys : ∀ y ∈ ys, y ∈ t.symbols)
    (e : xs.map Symbol.text <+: ys.map Symbol.text) : xs <+: ys := by
  have htake := List.prefix_iff_eq_take.mp e
  rw [List.length_map, ← List.map_take] at htake
  have heq := eq_of_map_text h hxs (fun y hy => hys y (List.mem_of_mem_take hy)) htake
  rw [heq]
  exact List.take_prefix _ _

end SymbolTable

namespace Parser

variable {p : Parser}

theorem map_text_prepare (input : List Char) :
    (p.prepare input).1.map Symbol.text = input.map String.singleton :=
  SymbolTable.map_text_internAll _

theorem start_prepare {s : Symbol} (h : p.grammar.start = some s) (input : List Char) :
    (p.prepare input).2 = s := by
  simp [prepare, h]

theorem text_start_prepare (h : p.grammar.start = p.grammar.symbols.lookup p.startText)
    (input : List Char) : (p.prepare input).2.text = p.startText := by
  rw [prepare, h]
  cases hlookup : p.grammar.symbols.lookup p.startText with
  | none => exact SymbolTable.text_intern
  | some s => exact (SymbolTable.text_of_lookup hlookup).2

theorem prepare_eq_of_spelling (hp : p.grammar.symbols.WellFormed) {xs : List Symbol}
    (hxs : ∀ x ∈ xs, x ∈ p.grammar.symbols.symbols) {input : List Char}
    (h : xs.map Symbol.text = input.map String.singleton) : (p.prepare input).1 = xs := by
  have htable := hp.internAll .terminal (input.map String.singleton)
  have hspelled := (map_text_prepare (p := p) input).trans h.symm
  exact SymbolTable.eq_of_map_text htable SymbolTable.internAll_mem
    (fun x hx => SymbolTable.mem_internAll_of_mem (hxs x hx)) hspelled

/-- Where the symbols at the beginning of an input spell the beginning of a string of the grammar,
they are the beginning of that string. -/
theorem isPrefix_of_spelling (hp : p.grammar.symbols.WellFormed) {input : List Char}
    {xs ys : List Symbol} (hxs : xs <+: (p.prepare input).1)
    (hys : ∀ y ∈ ys, y ∈ p.grammar.symbols.symbols)
    (h : xs.map Symbol.text <+: ys.map Symbol.text) : xs <+: ys := by
  have htable := hp.internAll .terminal (input.map String.singleton)
  exact SymbolTable.isPrefix_of_map_text htable
    (fun x hx => SymbolTable.internAll_mem x (hxs.subset hx))
    (fun y hy => SymbolTable.mem_internAll_of_mem (hys y hy)) h

theorem prepare_append_marker (hp : p.grammar.symbols.WellFormed)
    (hmem : p.grammar.endMarker ∈ p.grammar.symbols.symbols) {m : Char}
    (hm : p.grammar.endMarker.text = String.singleton m) (w : List Char) :
    ∃ us, (p.prepare (w ++ [m])).1 = us ++ [p.grammar.endMarker] ∧
      us.map Symbol.text = w.map String.singleton := by
  have hspelled := map_text_prepare (p := p) (w ++ [m])
  rw [List.map_append] at hspelled
  obtain ⟨us, vs, hsplit, hus, hvs⟩ := List.map_eq_append_iff.mp hspelled
  obtain ⟨last, rest, rfl, hlast, hrest⟩ := List.map_eq_cons_iff.mp hvs
  obtain rfl := List.map_eq_nil_iff.mp hrest
  have htable := hp.internAll .terminal ((w ++ [m]).map String.singleton)
  have hknown : last ∈ (p.prepare (w ++ [m])).1 := by rw [hsplit]; simp
  have hend : last = p.grammar.endMarker :=
    SymbolTable.eq_of_text htable (SymbolTable.internAll_mem last hknown)
      (SymbolTable.mem_internAll_of_mem hmem) (hlast.trans hm.symm)
  exact ⟨us, by rw [hsplit, hend], hus⟩

theorem initial_append_marker (hp : p.grammar.symbols.WellFormed)
    (hmem : p.grammar.endMarker ∈ p.grammar.symbols.symbols) {s : Symbol}
    (hstart : p.grammar.start = some s) {m : Char}
    (hm : p.grammar.endMarker.text = String.singleton m) (w : List Char) :
    ∃ us, p.initial (w ++ [m]) = ⟨[s], us ++ [p.grammar.endMarker]⟩ ∧
      (p.prepare (w ++ [m])).1 = us ++ [p.grammar.endMarker] ∧
      us.map Symbol.text = w.map String.singleton := by
  obtain ⟨us, hsplit, hus⟩ := prepare_append_marker hp hmem hm w
  refine ⟨us, ?_, hsplit, hus⟩
  rw [initial, start_prepare hstart, hsplit]

theorem endsWithMarker_append {m : Char} (hm : p.grammar.endMarker.text = String.singleton m)
    (w : List Char) : p.EndsWithMarker (w ++ [m]) := ⟨w, by simp [hm]⟩

theorem runs_of_parse {input : String} (hend : p.EndsWithMarker input.toList) {limit : Nat}
    {r : Except ParseError Trace} (h : p.parse limit input = some r) :
    ∃ run, p.table.Runs p.grammar.endMarker (p.initial input.toList) run ∧ r = run.result := by
  rw [parse, if_pos hend] at h
  obtain ⟨run, hrun, rfl⟩ := Option.map_eq_some_iff.mp h
  exact ⟨run, ParsingTable.runs_iff.mpr ⟨limit, hrun⟩, rfl⟩

theorem exists_parse_of_runs {input : String} (hend : p.EndsWithMarker input.toList) {run : Run}
    (h : p.table.Runs p.grammar.endMarker (p.initial input.toList) run) :
    ∃ limit, p.parse limit input = some run.result := by
  obtain ⟨limit, hrun⟩ := ParsingTable.runs_iff.mp h
  refine ⟨limit, ?_⟩
  rw [parse, if_pos hend, hrun]
  rfl

end Parser

end GrammarLab
