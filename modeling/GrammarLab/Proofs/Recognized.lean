import Mathlib
import GrammarLab.Lexer.Recognized

/-!
# What an analyser has recognised

An analyser gives the tokens of each source as if it were fresh. Its record holds every text of all
tokens given so far, in the order of their first occurrences, with the category of the last token of
that text. The summary of a list of tokens counts each of them in one category.
-/

namespace GrammarLab.Lexer

variable {ts : List Token} {t : Token} {text : String} {category : Category}

theorem eraseDups_append_singleton (texts : List String) (text : String) :
    (texts ++ [text]).eraseDups =
      if text ∈ texts then texts.eraseDups else texts.eraseDups ++ [text] := by
  rw [List.eraseDups_append]
  by_cases h : text ∈ texts <;> simp [h, List.removeAll, List.eraseDups_cons]

/-- The last token with the text has the category. -/
def Latest (ts : List Token) (text : String) (category : Category) : Prop :=
  ∃ before t after, ts = before ++ t :: after ∧ t.text = text ∧ t.category = category ∧
    text ∉ after.map Token.text

theorem latest_append_singleton : Latest (ts ++ [t]) text category ↔
    if text = t.text then t.category = category else Latest ts text category := by
  constructor
  · rintro ⟨before, u, after, hsplit, rfl, rfl, hafter⟩
    rcases List.eq_nil_or_concat' after with rfl | ⟨after, v, rfl⟩
    · obtain ⟨rfl, heq⟩ := List.append_inj' hsplit rfl
      obtain rfl := List.singleton_inj.mp heq
      simp
    · rw [← List.cons_append, ← List.append_assoc] at hsplit
      obtain ⟨rfl, heq⟩ := List.append_inj' hsplit rfl
      obtain rfl := List.singleton_inj.mp heq
      simp only [List.map_append, List.map_cons, List.map_nil, List.mem_append, List.mem_singleton,
        not_or] at hafter
      rw [if_neg hafter.2]
      exact ⟨before, u, after, rfl, rfl, rfl, hafter.1⟩
  · intro h
    split at h
    · next htext => exact ⟨ts, t, [], rfl, htext.symm, h, List.not_mem_nil⟩
    · next htext =>
      obtain ⟨before, u, after, rfl, rfl, rfl, hafter⟩ := h
      have hlater : u.text ∉ (after ++ [t]).map Token.text := by
        rw [List.map_append, List.mem_append, not_or]
        exact ⟨hafter, fun h => htext (List.mem_singleton.mp h)⟩
      exact ⟨before, u, after ++ [t], by simp, rfl, rfl, hlater⟩

namespace Recognized

variable {r : Recognized}

/-- What is recorded of the tokens given so far. -/
structure Records (ts : List Token) (r : Recognized) : Prop where
  texts : r.entries.map Prod.fst = (ts.map Token.text).eraseDups
  latest : ∀ text category, r.entries.lookup text = some category ↔ Latest ts text category

theorem records_nil : Records [] {} := by
  refine ⟨rfl, fun text category => ?_⟩
  simp [Latest]

theorem Records.record (h : Records ts r) (t : Token) : Records (ts ++ [t]) (r.record t) := by
  constructor
  · rw [Recognized.record, Assoc.keys_put, h.texts, List.map_append, List.map_singleton,
      eraseDups_append_singleton]
    simp
  · intro text category
    rw [Recognized.record, Assoc.lookup_put, latest_append_singleton, ← h.latest]
    by_cases htext : text = t.text <;> simp [htext]

theorem Records.recordAll (h : Records ts r) (us : List Token) :
    Records (ts ++ us) (r.recordAll us) := by
  induction us generalizing ts r with
  | nil => simpa [Recognized.recordAll] using h
  | cons u us ih =>
    have hlater := ih (h.record u)
    rwa [List.append_assoc] at hlater

theorem Records.tokenizeAll (h : Records ts r) (sources : List String) {i : Nat}
    {us : List Token} {q : Recognized} (hi : (r.tokenizeAll sources)[i]? = some (us, q)) :
    Records (ts ++ ((r.tokenizeAll sources).take (i + 1)).flatMap Prod.fst) q := by
  induction sources generalizing ts r i with
  | nil => cases hi
  | cons source sources ih =>
    have hfirst := h.recordAll (Lexer.tokenize source)
    cases i with
    | zero =>
      cases hi
      simpa [Recognized.tokenizeAll, tokenize] using hfirst
    | succ i => simpa [Recognized.tokenizeAll, tokenize] using ih hfirst hi

theorem map_fst_tokenizeAll (r : Recognized) (sources : List String) :
    (r.tokenizeAll sources).map Prod.fst = sources.map Lexer.tokenize := by
  induction sources generalizing r with
  | nil => rfl
  | cons source sources ih =>
    exact congrArg (Lexer.tokenize source :: ·) (ih (r.tokenize source).2)

end Recognized

structure Counts (ts : List Token) (counts : List (Category × Nat)) : Prop where
  categories : counts.map Prod.fst = Category.all
  names : (counts.map fun e => e.1.displayName).Nodup
  count : ∀ e ∈ counts, e.2 = (ts.map Token.category).count e.1
  total : (counts.map Prod.snd).sum = ts.length

theorem sum_countP_category (ts : List Token) :
    (Category.all.map fun c => ts.countP fun t => t.category = c).sum = ts.length := by
  induction ts with
  | nil => rfl
  | cons t ts ih =>
    have hone : (Category.all.map fun c => if decide (t.category = c) then 1 else 0).sum = 1 := by
      cases t.category <;> rfl
    simp only [List.countP_cons, List.sum_map_add, ih, hone, List.length_cons]

theorem counts_summary (ts : List Token) : Counts ts (summary ts) := by
  refine ⟨by simp [summary, Function.comp_def], ?_, ?_, ?_⟩
  · have hnames : (Category.all.map Category.displayName).Nodup := by decide
    simpa [summary, Function.comp_def] using hnames
  · intro e he
    obtain ⟨c, -, rfl⟩ := List.mem_map.mp he
    rw [List.count, List.countP_map]
    rfl
  · rw [summary, List.map_map]
    exact sum_countP_category ts

/-- The life of an analyser, however many sources it is given. -/
theorem recognized_tokenizeAll (sources : List String) :
    (Recognized.tokenizeAll {} sources).map Prod.fst =
      sources.map (fun source => (Recognized.tokenize {} source).1) ∧
    (∀ i ts r, (Recognized.tokenizeAll {} sources)[i]? = some (ts, r) →
      Recognized.Records (((Recognized.tokenizeAll {} sources).take (i + 1)).flatMap Prod.fst) r) ∧
    ∀ ts, Counts ts (summary ts) := by
  refine ⟨Recognized.map_fst_tokenizeAll {} sources, fun i ts r hi => ?_, counts_summary⟩
  simpa using Recognized.records_nil.tokenizeAll sources hi

/-- A name, a literal and a comment of one text share an entry. -/
example : ((Recognized.tokenizeAll {} ["y x", "'x' z", "//x"]).map fun a => a.2.entries) =
    [[("y", .identifier), ("x", .identifier)],
      [("y", .identifier), ("x", .char), ("z", .identifier)],
      [("y", .identifier), ("x", .comment), ("z", .identifier)]] := by decide +kernel

end GrammarLab.Lexer
