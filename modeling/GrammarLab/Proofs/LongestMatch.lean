import Mathlib
import GrammarLab.Lexer.Lexeme

/-!
# Longest matches

The match found in a trie is the longest stored word that begins the text, and nothing is found
only where no stored word does. A trie built from entries stores exactly their words. The trie of
the C-like language stores the delimiters and operators with their categories.
-/

namespace GrammarLab

namespace Trie

variable {α : Type} {t : Trie α} {cs w v : List Char} {a b : α}

/-- The word is the longest of the stored ones, the empty one apart, that begin the text. -/
structure Longest (t : Trie α) (cs w : List Char) (a : α) : Prop where
  ne_nil : w ≠ []
  begins : w <+: cs
  stored : t.find w = some a
  length_le : ∀ v, v <+: cs → (t.find v).isSome → v.length ≤ w.length

def Unmatched (t : Trie α) (cs : List Char) : Prop :=
  ∀ v, v <+: cs → v ≠ [] → t.find v = none

theorem unmatched_nil (t : Trie α) : t.Unmatched [] := by
  intro v hv hne
  exact absurd (List.prefix_nil.mp hv) hne

theorem Longest.unique (h : t.Longest cs w a) (k : t.Longest cs v b) : w = v ∧ a = b := by
  have hlength : w.length = v.length :=
    le_antisymm (k.length_le w h.begins (by simp [h.stored]))
      (h.length_le v k.begins (by simp [k.stored]))
  obtain rfl : w = v := (List.prefix_of_prefix_length_le h.begins k.begins hlength.le).eq_of_length
    hlength
  exact ⟨rfl, Option.some.inj (h.stored.symm.trans k.stored)⟩

theorem Longest.not_unmatched (h : t.Longest cs w a) : ¬t.Unmatched cs := by
  intro hnone
  cases h.stored.symm.trans (hnone w h.begins h.ne_nil)

theorem unmatched_cons_iff {c : Char} {rest : List Char} :
    t.Unmatched (c :: rest) ↔ ∀ v, v <+: rest → t.find (c :: v) = none := by
  constructor
  · intro h v hv
    exact h (c :: v) (List.cons_prefix_cons.mpr ⟨rfl, hv⟩) (by simp)
  · intro h v hv hne
    obtain ⟨d, tail, rfl⟩ := List.exists_cons_of_ne_nil hne
    obtain ⟨rfl, htail⟩ := List.cons_prefix_cons.mp hv
    exact h tail htail

section Child

variable {kid : Trie α} {c : Char} {rest : List Char}

theorem find_cons_of_child (h : t.child c = some kid) (v : List Char) :
    t.find (c :: v) = kid.find v := by
  rw [find, h, Option.bind_some]

theorem Longest.cons (hkid : t.child c = some kid) (h : kid.Longest rest w a) :
    t.Longest (c :: rest) (c :: w) a := by
  refine ⟨by simp, List.cons_prefix_cons.mpr ⟨rfl, h.begins⟩,
    (find_cons_of_child hkid w).trans h.stored, ?_⟩
  intro v hv hstored
  cases v with
  | nil => simp
  | cons d tail =>
    obtain ⟨rfl, htail⟩ := List.cons_prefix_cons.mp hv
    rw [find_cons_of_child hkid] at hstored
    exact Nat.succ_le_succ (h.length_le tail htail hstored)

theorem Unmatched.cons (hkid : t.child c = some kid) (h : kid.Unmatched rest)
    (hvalue : kid.value = none) : t.Unmatched (c :: rest) := by
  refine unmatched_cons_iff.mpr fun v hv => (find_cons_of_child hkid v).trans ?_
  by_cases hne : v = []
  · rw [hne]
    exact hvalue
  · exact h v hv hne

theorem Unmatched.longest_singleton (hkid : t.child c = some kid) (h : kid.Unmatched rest)
    (hvalue : kid.value = some a) : t.Longest (c :: rest) [c] a := by
  refine ⟨by simp, by simp, (find_cons_of_child hkid []).trans hvalue, ?_⟩
  intro v hv hstored
  cases v with
  | nil => simp
  | cons d tail =>
    obtain ⟨rfl, htail⟩ := List.cons_prefix_cons.mp hv
    by_cases hne : tail = []
    · simp [hne]
    · rw [find_cons_of_child hkid, h tail htail hne] at hstored
      cases hstored

end Child

theorem longestMatch_spec (t : Trie α) (cs : List Char) :
    match t.longestMatch cs with
    | some (w, a) => t.Longest cs w a
    | none => t.Unmatched cs := by
  fun_induction longestMatch t cs with
  | case1 t => exact unmatched_nil t
  | case2 t c rest hchild =>
    refine unmatched_cons_iff.mpr fun v _ => ?_
    rw [find, hchild, Option.bind_none]
  | case3 t c rest kid hchild w a hlongest ih =>
    rw [hlongest] at ih
    exact ih.cons hchild
  | case4 t c rest kid hchild hlongest ih =>
    rw [hlongest] at ih
    cases hvalue : kid.value with
    | none => exact ih.cons hchild hvalue
    | some a => exact ih.longest_singleton hchild hvalue

theorem longestMatch_eq_some_iff : t.longestMatch cs = some (w, a) ↔ t.Longest cs w a := by
  have hspec := longestMatch_spec t cs
  constructor
  · intro h
    rwa [h] at hspec
  · intro h
    cases hlongest : t.longestMatch cs with
    | none =>
      rw [hlongest] at hspec
      exact absurd hspec h.not_unmatched
    | some p =>
      rw [hlongest] at hspec
      obtain ⟨rfl, rfl⟩ := hspec.unique h
      rfl

theorem longestMatch_eq_none_iff : t.longestMatch cs = none ↔ t.Unmatched cs := by
  have hspec := longestMatch_spec t cs
  constructor
  · intro h
    rwa [h] at hspec
  · intro h
    cases hlongest : t.longestMatch cs with
    | none => rfl
    | some p =>
      rw [hlongest] at hspec
      exact absurd h hspec.not_unmatched

theorem Longest.of_begins {ds : List Char} (h : t.Longest cs w a) (hw : w <+: ds)
    (hds : ∀ v, (t.find v).isSome → v <+: ds → v <+: cs) : t.Longest ds w a :=
  ⟨h.ne_nil, hw, h.stored, fun v hv hstored => h.length_le v (hds v hstored hv) hstored⟩

theorem Unmatched.of_begins {ds : List Char} (h : t.Unmatched cs)
    (hds : ∀ v, (t.find v).isSome → v <+: ds → v <+: cs) : t.Unmatched ds := by
  intro v hv hne
  by_contra hstored
  have hcs := hds v (Option.ne_none_iff_isSome.mp hstored) hv
  exact hstored (h v hcs hne)

theorem find_ofEntries (entries : List (List Char × α)) (w : List Char) :
    (ofEntries entries).find w = entries.reverse.lookup w := by
  induction entries using List.reverseRecOn with
  | nil => simp [ofEntries]
  | append_singleton es e ih =>
    rw [ofEntries, List.foldl_append, ← ofEntries, List.foldl_cons, List.foldl_nil, find_insert,
      List.reverse_concat, ih]
    obtain ⟨v, a⟩ := e
    by_cases h : w = v
    · simp [h]
    · simp [List.lookup_cons, h, beq_false_of_ne h]

theorem mem_of_find_ofEntries {entries : List (List Char × α)}
    (h : (ofEntries entries).find w = some a) : (w, a) ∈ entries := by
  rw [find_ofEntries, List.lookup_eq_some_iff] at h
  obtain ⟨before, after, hsplit, -⟩ := h
  rw [← List.mem_reverse, hsplit]
  simp

theorem isSome_find_ofEntries {entries : List (List Char × α)} :
    ((ofEntries entries).find w).isSome ↔ w ∈ entries.map Prod.fst := by
  rw [find_ofEntries, List.lookup_isSome_iff, List.mem_map]
  constructor
  · rintro ⟨e, he, hw⟩
    exact ⟨e, List.mem_reverse.mp he, (beq_iff_eq.mp hw).symm⟩
  · rintro ⟨e, he, rfl⟩
    exact ⟨e, List.mem_reverse.mpr he, beq_self_eq_true e.1⟩

/-- The entries, taken as a map, send the word to the value: no later entry has the same word. -/
def Maps (entries : List (List Char × α)) (w : List Char) (a : α) : Prop :=
  ∃ before after, entries = before ++ (w, a) :: after ∧ w ∉ after.map Prod.fst

theorem find_ofEntries_eq_some_iff {entries : List (List Char × α)} :
    (ofEntries entries).find w = some a ↔ Maps entries w a := by
  have hne (es : List (List Char × α)) :
      (∀ e ∈ es.reverse, w != e.1) ↔ w ∉ es.map Prod.fst := by
    simp only [List.mem_reverse, bne_iff_ne, List.mem_map, not_exists, not_and]
    exact forall₂_congr fun _ _ => ne_comm
  rw [find_ofEntries, List.lookup_eq_some_iff]
  constructor
  · rintro ⟨later, earlier, hsplit, hlater⟩
    refine ⟨earlier.reverse, later.reverse, ?_, (hne later.reverse).mp (by simpa using hlater)⟩
    rw [← List.reverse_reverse entries, hsplit]
    simp
  · rintro ⟨before, after, rfl, hafter⟩
    exact ⟨after.reverse, before.reverse, by simp, (hne after).mpr hafter⟩

/-- The longest of the words, the empty one apart, that begin the text, and the value it has. -/
structure LongestEntry (entries : List (List Char × α)) (cs w : List Char) (a : α) : Prop where
  ne_nil : w ≠ []
  begins : w <+: cs
  maps : Maps entries w a
  length_le : ∀ e ∈ entries, e.1 <+: cs → e.1.length ≤ w.length

theorem longest_ofEntries_iff {entries : List (List Char × α)} :
    (ofEntries entries).Longest cs w a ↔ LongestEntry entries cs w a := by
  constructor
  · intro h
    refine ⟨h.ne_nil, h.begins, find_ofEntries_eq_some_iff.mp h.stored, ?_⟩
    intro e he hbegins
    exact h.length_le e.1 hbegins (isSome_find_ofEntries.mpr (List.mem_map_of_mem he))
  · intro h
    refine ⟨h.ne_nil, h.begins, find_ofEntries_eq_some_iff.mpr h.maps, ?_⟩
    intro v hbegins hstored
    obtain ⟨e, he, rfl⟩ := List.mem_map.mp (isSome_find_ofEntries.mp hstored)
    exact h.length_le e he hbegins

theorem unmatched_ofEntries_iff {entries : List (List Char × α)} :
    (ofEntries entries).Unmatched cs ↔ ∀ e ∈ entries, e.1 ≠ [] → ¬e.1 <+: cs := by
  constructor
  · intro h e he hne hbegins
    have hstored := isSome_find_ofEntries.mpr (List.mem_map_of_mem he)
    rw [h e.1 hbegins hne] at hstored
    cases hstored
  · intro h v hbegins hne
    by_contra hstored
    obtain ⟨e, he, rfl⟩ :=
      List.mem_map.mp (isSome_find_ofEntries.mp (Option.ne_none_iff_isSome.mp hstored))
    exact h e he hne hbegins

theorem starts_insert (t : Trie α) (a : α) (w : List Char) (c : Char) :
    (t.insert a w).Starts c ↔ [c] <+: w ∨ t.Starts c := by
  cases w with
  | nil => simp [Starts, insert, child, children]
  | cons d rest =>
    rw [Starts, child_insert_cons]
    by_cases h : c = d
    · simp [h]
    · simp [h, Starts]

theorem starts_ofEntries {entries : List (List Char × α)} {c : Char} :
    (ofEntries entries).Starts c ↔ ∃ e ∈ entries, [c] <+: e.1 := by
  induction entries using List.reverseRecOn with
  | nil => simp [ofEntries, Starts, child, children, empty]
  | append_singleton es e ih =>
    rw [ofEntries, List.foldl_append, ← ofEntries, List.foldl_cons, List.foldl_nil, starts_insert,
      ih, or_comm]
    simp [or_and_right, exists_or]

/-- The words may be beginnings of one another, with gaps between them, and one may be empty. -/
theorem longestMatch_ofEntries (entries : List (List Char × α)) (text : List Char) (start : Nat) :
    (∀ w a, (ofEntries entries).longestMatch (text.drop start) = some (w, a) ↔
      LongestEntry entries (text.drop start) w a) ∧
    ((ofEntries entries).longestMatch (text.drop start) = none ↔
      ∀ e ∈ entries, e.1 ≠ [] → ¬e.1 <+: text.drop start) ∧
    (text.length ≤ start → (ofEntries entries).longestMatch (text.drop start) = none) ∧
    ∀ c, (ofEntries entries).Starts c ↔ ∃ e ∈ entries, [c] <+: e.1 := by
  refine ⟨fun w a => ?_, ?_, fun hend => ?_, fun c => starts_ofEntries⟩
  · rw [longestMatch_eq_some_iff, longest_ofEntries_iff]
  · rw [longestMatch_eq_none_iff, unmatched_ofEntries_iff]
  · rw [List.drop_of_length_le hend]
    rfl

example : (ofEntries [([], 0), (['<'], 1), (['<', '<', '='], 2), (['<'], 3)]).longestMatch
    ("a<<b".toList.drop 1) = some (['<'], 3) := by decide

end Trie

namespace Lexer

theorem category_of_find {w : List Char} {category : Category}
    (h : symbolTrie.find w = some category) : category = .delimiter ∨ category = .operator := by
  have hall : ∀ e ∈ symbolEntries, e.2 = .delimiter ∨ e.2 = .operator := by decide
  exact hall _ (Trie.mem_of_find_ofEntries h)

theorem newline_not_mem_of_find {w : List Char} (h : (symbolTrie.find w).isSome) : '\n' ∉ w := by
  have hall : ∀ v ∈ symbolEntries.map Prod.fst, '\n' ∉ v := by decide
  exact hall w (Trie.isSome_find_ofEntries.mp h)

theorem head_mem_symbolEntries {e : List Char × Category} (he : e ∈ symbolEntries) {c : Char}
    (hc : e.1.head? = some c) : c.isAlpha ∨ [c] ∈ symbolEntries.map Prod.fst := by
  -- in Booleans, because `decide` would try a quantifier over characters on all of them
  have hall : symbolEntries.all fun e =>
      e.1.head?.all fun c => c.isAlpha || [c] ∈ symbolEntries.map Prod.fst := by decide
  have hhead := List.all_eq_true.mp hall e he
  rw [hc, Option.all_some, Bool.or_eq_true, decide_eq_true_iff] at hhead
  exact hhead

theorem words_symbolEntries :
    symbolEntries.map Prod.fst = (delimiters ++ operators).map String.toList := by
  rw [symbolEntries, List.map_append, List.map_map, List.map_map, List.map_append]
  rfl

theorem head_of_unmatched {c : Char} {rest : List Char} (h : symbolTrie.Unmatched (c :: rest))
    (hletter : ¬c.isAlpha) : ∀ s ∈ delimiters ++ operators, s.toList.head? ≠ some c := by
  intro s hs hhead
  have hword : s.toList ∈ symbolEntries.map Prod.fst := by
    rw [words_symbolEntries]
    exact List.mem_map_of_mem hs
  obtain ⟨e, he, heq⟩ := List.mem_map.mp hword
  rcases head_mem_symbolEntries he (heq ▸ hhead) with hc | hc
  · exact hletter hc
  · have hstored := Trie.isSome_find_ofEntries.mpr hc
    rw [← symbolTrie, h [c] (by simp) (by simp)] at hstored
    cases hstored

end Lexer

end GrammarLab
