import Mathlib
import GrammarLab.Lexer.Lexeme

/-!
# Codes of character literals

A code denotes a number, however long it is. The rule for character literals never computes this
number: it drops zeros in front and then refuses more than three digits. Both ways give the same
codes, since zeros in front add nothing and a fourth digit behind another than zero adds too much.
-/

namespace GrammarLab.Lexer

open Text (decimalValue)

/-- The number that decimal digits denote, the most significant one first. -/
def numeralValue (ds : List Char) : Nat :=
  Nat.ofDigits 10 (ds.map fun c => c.toNat - '0'.toNat).reverse

/-- The texts between two quotes that make one character. -/
inductive DenotesChar : List Char → Prop
  | single (c : Char) : DenotesChar [c]
  | escaped (c : Char) : DenotesChar ['\\', c]
  | coded {code : List Char} : code ≠ [] → (∀ c ∈ code, c.isDigit) → numeralValue code < 377 →
      DenotesChar ('\\' :: code)

theorem numeralValue_concat (ds : List Char) (c : Char) :
    numeralValue (ds ++ [c]) = 10 * numeralValue ds + (c.toNat - '0'.toNat) := by
  simp [numeralValue, Nat.ofDigits_cons, Nat.add_comm]

theorem numeralValue_cons (c : Char) (ds : List Char) :
    numeralValue (c :: ds) = numeralValue ds + 10 ^ ds.length * (c.toNat - '0'.toNat) := by
  simp [numeralValue, Nat.ofDigits_append]

theorem decimalValue_eq_numeralValue (ds : List Char) : decimalValue ds = numeralValue ds := by
  induction ds using List.reverseRecOn with
  | nil => rfl
  | append_singleton ds c ih =>
    rw [decimalValue, List.foldl_append, ← decimalValue, ih, numeralValue_concat]
    rfl

theorem numeralValue_dropWhile (ds : List Char) :
    numeralValue (ds.dropWhile (· = '0')) = numeralValue ds := by
  induction ds with
  | nil => rfl
  | cons c ds ih =>
    by_cases h : c = '0'
    · rw [List.dropWhile_cons_of_pos (by simpa using h), ih, numeralValue_cons, h]
      simp
    · rw [List.dropWhile_cons_of_neg (by simpa using h)]

theorem toNat_of_isDigit {c : Char} (h : c.isDigit) : '0'.toNat ≤ c.toNat := by
  simp only [Char.isDigit, Bool.and_eq_true, decide_eq_true_eq] at h
  exact UInt32.le_iff_toNat_le.mp h.1

theorem pow_le_numeralValue {c : Char} {ds : List Char} (hdigit : c.isDigit) (hzero : c ≠ '0') :
    10 ^ ds.length ≤ numeralValue (c :: ds) := by
  have hne : c.toNat ≠ '0'.toNat := fun h => hzero (Char.toNat_inj.mp h)
  have hle := toNat_of_isDigit hdigit
  have hone : 1 ≤ c.toNat - '0'.toNat := by omega
  rw [numeralValue_cons]
  calc 10 ^ ds.length = 10 ^ ds.length * 1 := (Nat.mul_one _).symm
    _ ≤ 10 ^ ds.length * (c.toNat - '0'.toNat) := Nat.mul_le_mul_left _ hone
    _ ≤ _ := Nat.le_add_left _ _

theorem length_dropWhile_le {ds : List Char} (hdigits : ∀ c ∈ ds, c.isDigit)
    (hlimit : numeralValue ds < codeLimit) : (ds.dropWhile (· = '0')).length ≤ 3 := by
  cases hsplit : ds.dropWhile (· = '0') with
  | nil => simp
  | cons c rest =>
    have hmem : c ∈ ds := (List.dropWhile_sublist _).subset (hsplit ▸ List.mem_cons_self)
    have hzero : c ≠ '0' := by
      have hhead := List.head?_dropWhile_not (fun c => decide (c = '0')) ds
      rw [hsplit] at hhead
      simpa using hhead
    have hpow : 10 ^ rest.length < 10 ^ 3 :=
      calc 10 ^ rest.length ≤ numeralValue (c :: rest) := pow_le_numeralValue (hdigits c hmem) hzero
        _ = numeralValue ds := by rw [← hsplit, numeralValue_dropWhile]
        _ < codeLimit := hlimit
        _ ≤ 10 ^ 3 := by decide
    exact (Nat.pow_lt_pow_iff_right (by decide)).mp hpow

theorem isCharCode_iff {ds : List Char} :
    IsCharCode ds ↔ IsNumber ds ∧ numeralValue ds < codeLimit := by
  rw [IsCharCode, decimalValue_eq_numeralValue, numeralValue_dropWhile]
  constructor
  · rintro ⟨hnumber, -, hlimit⟩
    exact ⟨hnumber, hlimit⟩
  · rintro ⟨hnumber, hlimit⟩
    exact ⟨hnumber, length_dropWhile_le hnumber.2 hlimit, hlimit⟩

/-- A backslash with one digit is an escaped character, whatever the digit. -/
theorem isCharContent_iff {content : List Char} : IsCharContent content ↔ DenotesChar content := by
  constructor
  · intro h
    unfold IsCharContent at h
    split at h
    · exact h.elim
    · exact .single _
    · exact .escaped _
    · obtain ⟨rfl, hcode⟩ := h
      obtain ⟨⟨hne, hdigits⟩, hlimit⟩ := isCharCode_iff.mp hcode
      exact .coded hne hdigits hlimit
  · intro h
    cases h with
    | single c => trivial
    | escaped c => trivial
    | @coded code hne hdigits hlimit =>
      obtain ⟨c, rest, rfl⟩ := List.exists_cons_of_ne_nil hne
      cases rest with
      | nil => trivial
      | cons => exact ⟨rfl, isCharCode_iff.mpr ⟨⟨hne, hdigits⟩, hlimit⟩⟩

/-- Codes of any length, and nothing but characters and errors. -/
theorem charCategory_iff (content : List Char) :
    (charCategory content = .char ↔ DenotesChar content) ∧
      (charCategory content = .error ↔ ¬DenotesChar content) := by
  rw [charCategory, ← isCharContent_iff]
  by_cases h : IsCharContent content <;> simp [h]

example : charCategory "\\0000376".toList = .char ∧ charCategory "\\0377".toList = .error := by decide

end GrammarLab.Lexer
