import Mathlib
import GrammarLab.Proofs.GrammarOfText
import GrammarLab.Proofs.Pieces

/-!
# Malformed lines

A reader stops at the first line that is neither blank nor holds a rule, and blames it under its
number, in which blank lines count. It then holds what a fresh reader holds that has read the lines
before this one, but for the end marker. Texts that were read earlier have no part in it, whether
they were accepted or not.
-/

namespace GrammarLab

namespace Text

def IsMalformed (line : List Char) : Prop :=
  (∃ c ∈ trimEnd (fun c => c = '\r') line, ¬IsBlank c) ∧
    ¬HoldsRule (trimEnd (fun c => c = '\r') line)

instance (line : List Char) : Decidable (IsMalformed line) :=
  -- not over all characters, which form a finite type
  letI : Decidable (∃ c ∈ trimEnd (fun c => c = '\r') line, ¬IsBlank c) := List.decidableBEx _ _
  inferInstanceAs (Decidable (_ ∧ _))

def ofLines (ls : List (List Char)) : String := String.ofList (['\n'].intercalate ls)

/-- The first malformed line of a text, and the lines before it. -/
structure FirstMalformed (text : String) (before : List (List Char)) (line : List Char) :
    Prop where
  cut : ∃ after, text.toList.splitOn '\n' = before ++ line :: after
  readable : ∀ l ∈ before, ¬IsMalformed l
  malformed : IsMalformed line

theorem exists_firstMalformed {text : String}
    (h : ∃ line ∈ text.toList.splitOn '\n', IsMalformed line) :
    ∃ before line, FirstMalformed text before line := by
  cases hfind : (text.toList.splitOn '\n').find? fun line => IsMalformed line with
  | none =>
    obtain ⟨line, hline, hmalformed⟩ := h
    exact absurd (decide_eq_true hmalformed) (List.find?_eq_none.mp hfind line hline)
  | some line =>
    obtain ⟨hmalformed, before, after, hcut, hbefore⟩ := List.find?_eq_some_iff_append.mp hfind
    exact ⟨before, line, ⟨after, hcut⟩, by simpa using hbefore, of_decide_eq_true hmalformed⟩

/-- Joined lines are read as they are; a text of no lines has one blank line. -/
theorem contentLines_ofLines {ls : List (List Char)} (h : ∀ l ∈ ls, '\n' ∉ l) :
    contentLines (ofLines ls).toList =
      ((ls.zipIdx 1).map fun (cs, n) => ⟨n, trimEnd (fun c => c = '\r') cs⟩).filter
        fun l : Line => ¬l.Blank := by
  rw [contentLines, lines, ofLines, String.toList_ofList]
  by_cases hnil : ls = []
  · subst hnil
    rfl
  · rw [List.splitOn_intercalate '\n' h hnil]

variable {text : String} {before : List (List Char)} {line : List Char}

theorem FirstMalformed.newline_not_mem (h : FirstMalformed text before line) :
    ∀ l ∈ before, '\n' ∉ l := by
  obtain ⟨after, hcut⟩ := h.cut
  intro l hl
  have hmem : l ∈ text.toList.splitOn '\n' := hcut ▸ List.mem_append_left _ hl
  exact not_mem_of_mem_splitOn hmem

theorem FirstMalformed.contentLines_eq (h : FirstMalformed text before line) :
    ∃ rest, contentLines text.toList = contentLines (ofLines before).toList ++
      ⟨before.length + 1, trimEnd (fun c => c = '\r') line⟩ :: rest := by
  obtain ⟨after, hcut⟩ := h.cut
  obtain ⟨c, hc, hvisible⟩ := h.malformed.1
  have hcontent : ¬Line.Blank ⟨1 + before.length, trimEnd (fun c => c = '\r') line⟩ :=
    fun hblank => hvisible (hblank c hc)
  rw [contentLines_ofLines h.newline_not_mem, contentLines, lines, hcut, List.zipIdx_append,
    List.map_append, List.filter_append, List.zipIdx_cons, List.map_cons,
    List.filter_cons_of_pos (by simpa using hcontent), Nat.add_comm 1]
  exact ⟨_, rfl⟩

theorem FirstMalformed.holdsRule (h : FirstMalformed text before line) :
    ∀ l ∈ contentLines (ofLines before).toList, HoldsRule l.text := by
  intro l hl
  rw [contentLines_ofLines h.newline_not_mem, List.mem_filter] at hl
  obtain ⟨hline, hvisible⟩ := hl
  obtain ⟨⟨cs, n⟩, hcs, rfl⟩ := List.mem_map.mp hline
  by_contra hno
  refine h.readable cs (List.fst_mem_of_mem_zipIdx hcs) ⟨?_, hno⟩
  simpa [Line.Blank] using hvisible

end Text

theorem Draft.readLines_append {config : GrammarConfig} {empty : Symbol} {d e : Draft}
    {ls : List Text.Line} (rest : List Text.Line)
    (h : d.readLines config empty ls = (e, none)) :
    d.readLines config empty (ls ++ rest) = e.readLines config empty rest := by
  induction ls generalizing d with
  | nil =>
    obtain rfl := (Prod.mk.inj h).1
    rfl
  | cons l ls ih =>
    rw [List.cons_append, readLines]
    rw [readLines] at h
    split
    · next r hr =>
      rw [hr] at h
      exact ih h
    · next hr =>
      rw [hr] at h
      cases h

namespace Reader

def after (config : GrammarConfig) (history : List String) : Reader :=
  history.foldl (fun r text => (r.read text).2) { config }

theorem config_read (r : Reader) (text : String) : (r.read text).2.config = r.config := by
  rw [read]
  split <;> rfl

theorem config_after (config : GrammarConfig) (history : List String) :
    (after config history).config = config := by
  induction history using List.reverseRecOn with
  | nil => rfl
  | append_singleton history text ih =>
    rw [after, List.foldl_append]
    exact (config_read _ text).trans ih

/-- The reader blames a line and holds the rules of the lines before it. A fresh reader of these
lines numbers the end marker besides. -/
structure StopsAt (config : GrammarConfig) (r : Reader) (text : String)
    (before : List (List Char)) (line : List Char) (d : Draft) : Prop where
  answer : r.read text =
    (.error ⟨String.ofList (Text.trimEnd (fun c => c = '\r') line), before.length + 1⟩,
      { config, draft := d })
  alone : Reader.read { config } (Text.ofLines before) =
    (.ok (d.toGrammar config), { config, draft := d.close config })
  sights : ∃ rules, List.Forall₂ Rule.StandsOn rules (Text.content (Text.ofLines before)) ∧
    d.symbols = .ofSights (config.sights rules)

theorem stopsAt_of_firstMalformed (config : GrammarConfig) {text : String}
    {before : List (List Char)} {line : List Char} (h : Text.FirstMalformed text before line) :
    ∃ d, StopsAt config { config } text before line d := by
  obtain ⟨rules, d, hread, hbuilds, hstands⟩ := Draft.exists_builds config h.holdsRule
  rw [Text.map_text_contentLines] at hstands
  obtain ⟨rest, hlines⟩ := h.contentLines_eq
  have hnone : Rule.ofLine? (Text.trimEnd (fun c => c = '\r') line) = none := by
    rw [Option.eq_none_iff_forall_ne_some]
    intro r hr
    exact h.malformed.2 (Rule.exists_ofLine?_iff.mp ⟨r, hr⟩)
  refine ⟨d, ?_, ?_, rules, hstands, hbuilds.symbols⟩
  · rw [read, hlines, Draft.readLines_append _ hread, Draft.readLines]
    simp only [hnone]
  · rw [read, hread]

end Reader

end GrammarLab
