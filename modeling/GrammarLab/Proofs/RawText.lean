import Mathlib
import GrammarLab.Proofs.GrammarOfText
import GrammarLab.Proofs.Pieces

/-!
# Printing a grammar and reading it again

The productions of a grammar, each written on a line of its own, are a text that reads as the same
productions. Each line holds the merged rule of a left character: the alternatives of all rules with
this character, an empty one written as the empty marker. Such a line reads as the rule it was
written from, because no alternative holds a bar or a line feed and the last one does not end with
a carriage return. Merging moves the characters of rules about, so kinds stay where first sights do
not matter.
-/

namespace GrammarLab

def Grammar.raw (g : Grammar) : String := "\n".intercalate (g.productions.map Production.raw)

namespace Rule

variable {r : Rule} {rules : List Rule} {c m : Char}

def line (r : Rule) : List Char := r.left :: '-' :: '>' :: ['|'].intercalate r.alternatives

/-- A rule as it can be cut out of a text. -/
structure IsCut (r : Rule) : Prop where
  alternatives : r.alternatives ≠ []
  bars : ∀ cs ∈ r.alternatives, '|' ∉ cs
  newlines : '\n' ∉ r.chars
  last : ∀ cs ∈ r.alternatives.getLast?, cs.getLast? ≠ some '\r'

theorem isCut_of_mem_ofText {text : String} (h : r ∈ ofText text) : r.IsCut := by
  obtain ⟨line, hline, hr⟩ := List.mem_filterMap.mp h
  obtain ⟨body, -, htrim, halternatives⟩ := ofLine?_eq_some_iff.mp hr
  refine ⟨halternatives ▸ List.splitOn_ne_nil _ _, ?_, ?_, ?_⟩
  · exact fun cs hcs => Text.not_mem_of_mem_splitOn (halternatives ▸ hcs)
  · exact fun hc => Text.not_mem_of_mem_splitOn hline (mem_of_mem_chars hr hc)
  · intro cs hcs hreturn
    obtain ⟨before, hbefore⟩ := List.getLast?_eq_some_iff.mp hcs
    obtain ⟨kept, rfl⟩ := List.getLast?_eq_some_iff.mp hreturn
    obtain ⟨front, hfront⟩ := Text.exists_intercalate_concat ['|'] before (kept ++ ['\r'])
    rw [← hbefore, halternatives, List.intercalate_splitOn] at hfront
    have hend : Text.trimEnd (fun c => c = '\r') line =
        (r.left :: '-' :: '>' :: front ++ kept) ++ ['\r'] := by
      rw [htrim, hfront]
      simp
    exact Text.not_of_trimEnd_eq_concat hend (by decide)

theorem IsCut.ofRaw?_line (h : r.IsCut) (hwritten : ∀ cs ∈ r.alternatives, cs ≠ []) :
    ofRaw? r.line = some r := by
  obtain ⟨before, last, hlast⟩ := (List.eq_nil_or_concat' r.alternatives).resolve_left
    h.alternatives
  have hmem : last ∈ r.alternatives := by simp [hlast]
  obtain ⟨kept, c, rfl⟩ := (List.eq_nil_or_concat' last).resolve_left (hwritten last hmem)
  obtain ⟨front, hfront⟩ := Text.exists_intercalate_concat ['|'] before (kept ++ [c])
  rw [← hlast] at hfront
  have hc : c ≠ '\r' := by
    rintro rfl
    exact h.last (kept ++ ['\r']) (by simp [hlast]) (by simp)
  have hline : r.line = (r.left :: '-' :: '>' :: front ++ kept) ++ [c] := by
    simp [line, hfront]
  have htrim : Text.trimEnd (fun c => c = '\r') r.line = r.line := by
    rw [hline]
    exact Text.trimEnd_concat (by simpa using hc)
  rw [ofRaw?, htrim]
  refine ofLine?_eq_some_iff.mpr ⟨['|'].intercalate r.alternatives, ?_, rfl, ?_⟩
  · simp [hfront]
  · exact (List.splitOn_intercalate '|' h.bars h.alternatives).symm

theorem IsCut.newline_not_mem_line (h : r.IsCut) : '\n' ∉ r.line := by
  intro hmem
  have hcases : '\n' = r.left ∨ '\n' ∈ ['|'].intercalate r.alternatives := by
    simpa [line] using hmem
  rcases hcases with hleft | hbody
  · exact h.newlines (hleft ▸ List.mem_cons_self)
  · rcases Text.mem_of_mem_intercalate hbody with hbar | ⟨cs, hcs, hc⟩
    · exact absurd hbar (by decide)
    · exact h.newlines (List.mem_cons_of_mem _ (List.mem_flatten.mpr ⟨cs, hcs, hc⟩))

theorem ofText_lines (h : ∀ r ∈ rules, r.IsCut ∧ ∀ cs ∈ r.alternatives, cs ≠ []) {text : String}
    (htext : text.toList = ['\n'].intercalate (rules.map line)) :
    ofText text = rules ∧ ∀ line ∈ text.toList.splitOn '\n', Text.Readable line := by
  have hread : ∀ r ∈ rules, ofRaw? r.line = some r := fun r hr => (h r hr).1.ofRaw?_line (h r hr).2
  rw [ofText, htext]
  by_cases hnone : rules = []
  · subst hnone
    refine ⟨rfl, fun line hline => Or.inl ?_⟩
    obtain rfl := List.mem_singleton.mp hline
    simp [Text.trimEnd]
  · have hcut : (['\n'].intercalate (rules.map line)).splitOn '\n' = rules.map line := by
      apply List.splitOn_intercalate '\n' _ (by simpa using hnone)
      exact List.forall_mem_map.mpr fun r hr => (h r hr).1.newline_not_mem_line
    rw [hcut]
    constructor
    · rw [List.filterMap_map]
      exact (List.filterMap_congr hread).trans List.filterMap_some
    · refine List.forall_mem_map.mpr fun r hr => Or.inr ?_
      rw [hread r hr]
      rfl

def written (m : Char) : List Char → List Char
  | [] => [m]
  | c :: cs => c :: cs

def gathered (rules : List Rule) (c : Char) : List (List Char) :=
  (rules.filter fun r => r.left = c).flatMap alternatives

/-- The rule that gathers all rules of a left character. -/
def merged (m : Char) (rules : List Rule) (c : Char) : Rule :=
  ⟨c, (gathered rules c).map (written m)⟩

theorem written_ne_nil (m : Char) (cs : List Char) : written m cs ≠ [] := by
  cases cs <;> exact List.cons_ne_nil _ _

theorem mem_written {cs : List Char} (h : c ∈ written m cs) : c = m ∨ c ∈ cs := by
  cases cs with
  | nil => exact Or.inl (List.mem_singleton.mp h)
  | cons d cs => exact Or.inr h

theorem mem_written_of_mem {cs : List Char} (h : c ∈ cs) : c ∈ written m cs := by
  cases cs with
  | nil => exact absurd h List.not_mem_nil
  | cons d cs => exact h

theorem mem_gathered {cs : List Char} :
    cs ∈ gathered rules c ↔ ∃ r ∈ rules, r.left = c ∧ cs ∈ r.alternatives := by
  simp only [gathered, List.mem_flatMap, List.mem_filter, decide_eq_true_eq, and_assoc]

theorem mem_chars_merged (hc : c ≠ m) {left : Char} (hleft : ∃ r ∈ rules, r.left = left) :
    c ∈ (merged m rules left).chars ↔ ∃ r ∈ rules, r.left = left ∧ c ∈ r.chars := by
  simp only [chars, merged, List.mem_cons, List.mem_flatten, List.mem_map]
  constructor
  · rintro (rfl | ⟨_, ⟨cs, hcs, rfl⟩, hmem⟩)
    · obtain ⟨r, hr, hr'⟩ := hleft
      exact ⟨r, hr, hr', Or.inl hr'.symm⟩
    · obtain ⟨r, hr, hr', hcs⟩ := mem_gathered.mp hcs
      exact ⟨r, hr, hr', Or.inr ⟨cs, hcs, (mem_written hmem).resolve_left hc⟩⟩
  · rintro ⟨r, hr, rfl, rfl | ⟨cs, hcs, hmem⟩⟩
    · exact Or.inl rfl
    · exact Or.inr ⟨_, ⟨cs, mem_gathered.mpr ⟨r, hr, rfl, hcs⟩, rfl⟩, mem_written_of_mem hmem⟩

theorem exists_last_gathered (hrules : ∀ r ∈ rules, r.IsCut) (hc : ∃ r ∈ rules, r.left = c) :
    ∃ r ∈ rules, gathered rules c ≠ [] ∧
      (gathered rules c).getLast? = r.alternatives.getLast? := by
  obtain ⟨r, hr, hleft⟩ := hc
  have hne : (rules.filter fun r => r.left = c) ≠ [] :=
    List.ne_nil_of_mem (List.mem_filter.mpr ⟨hr, decide_eq_true hleft⟩)
  obtain ⟨before, last, hlast⟩ := (List.eq_nil_or_concat' _).resolve_left hne
  have hmem : last ∈ rules :=
    List.mem_of_mem_filter (hlast ▸ List.mem_append_right before (List.mem_singleton_self last))
  obtain ⟨alternatives, cs, hcs⟩ := (List.eq_nil_or_concat' last.alternatives).resolve_left
    (hrules last hmem).alternatives
  refine ⟨last, hmem, ?_, ?_⟩
  · simp [gathered, hlast, hcs]
  · simp [gathered, hlast, hcs]

theorem isCut_merged (hrules : ∀ r ∈ rules, r.IsCut) (hm : m ∉ ['|', '\n', '\r'])
    (hc : ∃ r ∈ rules, r.left = c) : (merged m rules c).IsCut := by
  simp only [List.mem_cons, List.not_mem_nil, or_false, not_or] at hm
  obtain ⟨r, hr, hne, hlast⟩ := exists_last_gathered hrules hc
  refine ⟨by simpa [merged] using hne, ?_, ?_, ?_⟩
  · refine List.forall_mem_map.mpr fun cs hcs hbar => ?_
    obtain ⟨q, hq, -, hcs⟩ := mem_gathered.mp hcs
    rcases mem_written hbar with hbar | hbar
    · exact hm.1 hbar.symm
    · exact (hrules q hq).bars cs hcs hbar
  · intro hnewline
    obtain ⟨q, hq, -, hmem⟩ := (mem_chars_merged (Ne.symm hm.2.1) hc).mp hnewline
    exact (hrules q hq).newlines hmem
  · intro cs hcs hreturn
    rw [merged, List.getLast?_map, hlast] at hcs
    obtain ⟨last, hmem, rfl⟩ := Option.map_eq_some_iff.mp hcs
    cases last with
    | nil => exact hm.2.2 (by simpa [written] using hreturn)
    | cons d last => exact (hrules r hr).last _ hmem hreturn

/-- The merged rules of all left characters, in the order of their first rules. -/
def mergedAll (m : Char) (rules : List Rule) : List Rule :=
  (firsts left rules).map fun r => merged m rules r.left

theorem nodup_left_mergedAll (m : Char) (rules : List Rule) :
    ((mergedAll m rules).map left).Nodup := by
  rw [mergedAll, List.map_map]
  exact nodup_map_firsts left rules

theorem exists_of_mem_mergedAll (h : r ∈ mergedAll m rules) :
    ∃ q ∈ rules, r = merged m rules q.left := by
  obtain ⟨q, hq, rfl⟩ := List.mem_map.mp h
  exact ⟨q, mem_of_mem_firsts hq, rfl⟩

theorem merged_mem_mergedAll (h : r ∈ rules) : merged m rules r.left ∈ mergedAll m rules := by
  obtain ⟨q, hq, hleft⟩ := exists_mem_firsts left h
  exact hleft ▸ List.mem_map_of_mem hq

theorem exists_mem_chars_mergedAll (hc : c ≠ m) :
    (∃ r ∈ mergedAll m rules, c ∈ r.chars) ↔ ∃ r ∈ rules, c ∈ r.chars := by
  constructor
  · rintro ⟨_, hr, hmem⟩
    obtain ⟨q, hq, rfl⟩ := exists_of_mem_mergedAll hr
    obtain ⟨p, hp, -, hmem⟩ := (mem_chars_merged hc ⟨q, hq, rfl⟩).mp hmem
    exact ⟨p, hp, hmem⟩
  · rintro ⟨r, hr, hmem⟩
    exact ⟨_, merged_mem_mergedAll hr, (mem_chars_merged hc ⟨r, hr, rfl⟩).mpr ⟨r, hr, rfl, hmem⟩⟩

end Rule

section Printing

variable {config : GrammarConfig} {rules : List Rule} {g : Grammar} {m : Char}
  (hmarker : config.emptyMarker = String.singleton m)

include hmarker

theorem GrammarConfig.spell_written (cs : List Char) :
    config.spell (Rule.written m cs) = config.spell cs := by
  cases cs with
  | nil => exact congrArg (fun text => [text]) hmarker.symm
  | cons c cs => rfl

theorem GrammarConfig.toList_spell (cs : List Char) :
    (config.spell cs).flatMap String.toList = Rule.written m cs := by
  cases cs with
  | nil => simp [spell, Rule.written, hmarker]
  | cons c cs => simp [spell, Rule.written, List.flatMap_map]

theorem GrammarConfig.alternatives_mergedAll {r : Rule} (hr : r ∈ rules) :
    config.alternatives (Rule.mergedAll m rules) r.left = config.alternatives rules r.left := by
  have hone := filter_key_eq_singleton (Rule.nodup_left_mergedAll m rules)
    (Rule.merged_mem_mergedAll hr)
  have hspell : config.spell ∘ Rule.written m = config.spell :=
    funext (GrammarConfig.spell_written hmarker)
  calc config.alternatives (Rule.mergedAll m rules) r.left
      = ([Rule.merged m rules r.left]).flatMap fun q => q.alternatives.map config.spell :=
        congrArg _ hone
    _ = (Rule.gathered rules r.left).map config.spell := by
        rw [List.flatMap_singleton, Rule.merged, List.map_map, hspell]
    _ = config.alternatives rules r.left := by
        rw [Rule.gathered, List.map_flatMap]
        rfl

theorem Production.toList_raw {p : Production} {c : Char}
    (hp : p.entry = (String.singleton c, config.alternatives rules c)) :
    p.raw.toList = (Rule.merged m rules c).line := by
  obtain ⟨hleft, hspelling⟩ := Prod.ext_iff.mp hp
  have hcandidates : p.candidates.map (fun c => (Candidate.raw c).toList) =
      p.spelling.map fun texts => texts.flatMap String.toList := by
    rw [spelling, List.map_map]
    exact List.map_congr_left fun c _ => String.toList_join
  have halternatives : (config.alternatives rules c).map (fun texts => texts.flatMap String.toList) =
      (Rule.gathered rules c).map (Rule.written m) := by
    rw [GrammarConfig.alternatives, Rule.gathered, List.map_flatMap, List.map_flatMap]
    simp only [List.map_map, Function.comp_def, GrammarConfig.toList_spell hmarker]
  have hbody : p.candidates.map (fun c => (Candidate.raw c).toList) =
      (Rule.gathered rules c).map (Rule.written m) :=
    hcandidates.trans ((congrArg _ hspelling).trans halternatives)
  have htext : p.left.text = String.singleton c := hleft
  rw [raw, rule, String.toList_append, String.toList_append, String.toList_intercalate,
    List.map_map, htext, String.toList_singleton, Rule.line, Rule.merged, ← hbody]
  rfl

theorem Grammar.OfRules.toList_raw (h : g.OfRules config rules) :
    g.raw.toList = ['\n'].intercalate ((Rule.mergedAll m rules).map Rule.line) := by
  have hlines : g.productions.map (fun p => p.raw.toList) =
      (firsts Rule.left rules).map fun r => (Rule.merged m rules r.left).line :=
    map_eq_map_of_map_eq h.productions fun p _ r hp => Production.toList_raw hmarker hp
  rw [Grammar.raw, String.toList_intercalate, List.map_map, Rule.mergedAll, List.map_map]
  exact congrArg _ hlines

theorem Grammar.OfRules.entries_mergedAll {h : Grammar} (hg : g.OfRules config rules)
    (hh : h.OfRules config (Rule.mergedAll m rules)) :
    h.productions.map Production.entry = g.productions.map Production.entry := by
  rw [hh.productions, hg.productions, firsts_of_nodup (Rule.nodup_left_mergedAll m rules),
    Rule.mergedAll, List.map_map]
  refine List.map_congr_left fun r hr => ?_
  have hsame := GrammarConfig.alternatives_mergedAll hmarker (mem_of_mem_firsts hr)
  exact congrArg (Prod.mk (String.singleton r.left)) hsame

/-- The rules of raw text are merged from those of the text, and it has no other lines. -/
theorem Grammar.ofText_raw {text : String} (hm : m ∉ ['|', '\n', '\r'])
    (hread : Grammar.read config text = .ok g) :
    Rule.ofText g.raw = Rule.mergedAll m (Rule.ofText text) ∧
      ∀ line ∈ g.raw.toList.splitOn '\n', Text.Readable line := by
  have hcut : ∀ r ∈ Rule.ofText text, r.IsCut := fun r hr => Rule.isCut_of_mem_ofText hr
  refine Rule.ofText_lines ?_ ((Grammar.ofRules_of_read hread).toList_raw hmarker)
  intro r hr
  obtain ⟨q, hq, rfl⟩ := Rule.exists_of_mem_mergedAll hr
  refine ⟨Rule.isCut_merged hcut hm ⟨q, hq, rfl⟩, ?_⟩
  exact List.forall_mem_map.mpr fun cs _ => Rule.written_ne_nil m cs

end Printing

theorem Grammar.OfRules.forall_left {config : GrammarConfig} {rules : List Rule} {g : Grammar}
    (h : g.OfRules config rules) {P : Char → Prop}
    (hlefts : ∀ p ∈ g.productions, ∃ c, p.left.text = String.singleton c ∧ P c) :
    ∀ r ∈ rules, P r.left := by
  intro r hr
  obtain ⟨p, hp, hleft⟩ := h.exists_production hr
  obtain ⟨c, hc, hP⟩ := hlefts p hp
  obtain rfl : r.left = c := singleton_inj.mp (hleft.symm.trans hc)
  exact hP

/-- Raw text is accepted and has the same productions, with their candidates in the same order. If
all left characters are letters, it has the same kinds and terminals too. -/
theorem Grammar.read_raw {config : GrammarConfig} {text : String} {g : Grammar} {m : Char}
    (hmarker : config.emptyMarker = String.singleton m) (hm : m ∉ ['|', '\n', '\r'])
    (hread : Grammar.read config text = .ok g) :
    ∃ h, Grammar.read config g.raw = .ok h ∧
      h.productions.map Production.entry = g.productions.map Production.entry ∧
      ((∀ p ∈ g.productions, ∃ c, p.left.text = String.singleton c ∧ 'A' ≤ c ∧ c ≤ 'Z') →
        (∀ u, h.symbols.kindAt u = g.symbols.kindAt u) ∧
        ∀ u, (∃ x ∈ h.terminals, x.text = u) ↔ ∃ x ∈ g.terminals, x.text = u) := by
  have hg := Grammar.ofRules_of_read hread
  obtain ⟨hrules, hreadable⟩ := Grammar.ofText_raw hmarker hm hread
  obtain ⟨h, hh⟩ := Grammar.exists_read_iff.mpr hreadable
  have hh' : h.OfRules config (Rule.mergedAll m (Rule.ofText text)) :=
    hrules ▸ Grammar.ofRules_of_read hh
  have hentries := hg.entries_mergedAll hmarker hh'
  refine ⟨h, hh, hentries, fun hletters => ?_⟩
  have hlefts := hg.forall_left hletters
  have hlefts' : ∀ r ∈ Rule.ofText g.raw, 'A' ≤ r.left ∧ r.left ≤ 'Z' := by
    rw [hrules]
    intro r hr
    obtain ⟨q, hq, rfl⟩ := Rule.exists_of_mem_mergedAll hr
    exact hlefts q hq
  have hkinds : ∀ u, h.symbols.kindAt u = g.symbols.kindAt u := by
    refine Grammar.kindAt_congr hread hh hlefts hlefts' fun c hc => ?_
    rw [hrules]
    rw [hmarker, Ne, singleton_inj] at hc
    exact Rule.exists_mem_chars_mergedAll hc
  refine ⟨hkinds, fun u => ?_⟩
  rw [hh'.mem_terminals_iff, hg.mem_terminals_iff, hkinds, hentries]

/-- Two lines are merged, with an empty alternative between theirs; a carriage return, the arrow and
a blank are characters of alternatives. -/
theorem Grammar.read_raw_merged : ∃ g h,
    Grammar.read {} "S->aA|\r|b\r\n \nA->-|>\r|S\r\r\nS->| A\n" = .ok g ∧
      Grammar.read {} g.raw = .ok h ∧
      h.productions.map Production.entry = g.productions.map Production.entry ∧
      ∀ u, h.symbols.kindAt u = g.symbols.kindAt u := by
  obtain ⟨g, hg, hlefts⟩ : ∃ g,
      Grammar.read {} "S->aA|\r|b\r\n \nA->-|>\r|S\r\r\nS->| A\n" = .ok g ∧
      ∀ p ∈ g.productions, p.left.text = "S" ∨ p.left.text = "A" := by decide +kernel
  have hletters : ∀ p ∈ g.productions,
      ∃ c, p.left.text = String.singleton c ∧ 'A' ≤ c ∧ c ≤ 'Z' := by
    intro p hp
    rcases hlefts p hp with hleft | hleft
    · exact ⟨'S', hleft, by decide, by decide⟩
    · exact ⟨'A', hleft, by decide, by decide⟩
  obtain ⟨h, hh, hentries, hkinds⟩ := read_raw (m := '$') rfl (by decide) hg
  exact ⟨g, h, hg, hh, hentries, (hkinds hletters).1⟩

end GrammarLab
