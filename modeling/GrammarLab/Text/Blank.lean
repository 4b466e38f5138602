/-!
# White space

The characters that count as white space when blank lines are skipped and when a value is
trimmed: the Unicode white space characters and the four separators U+001C to U+001F. A zero-width
space and a byte order mark are no white space.
-/

namespace GrammarLab.Text

def IsBlank (c : Char) : Prop :=
  (0x09 ≤ c.toNat ∧ c.toNat ≤ 0x0D) ∨ (0x1C ≤ c.toNat ∧ c.toNat ≤ 0x20) ∨ c.toNat = 0x85 ∨
    c.toNat = 0xA0 ∨ c.toNat = 0x1680 ∨ (0x2000 ≤ c.toNat ∧ c.toNat ≤ 0x200A) ∨
    c.toNat = 0x2028 ∨ c.toNat = 0x2029 ∨ c.toNat = 0x202F ∨ c.toNat = 0x205F ∨ c.toNat = 0x3000

instance (c : Char) : Decidable (IsBlank c) := inferInstanceAs (Decidable (_ ∨ _))

/-- Drops the longest run of characters with a property from the end. -/
def trimEnd (p : Char → Bool) : List Char → List Char
  | [] => []
  | c :: rest =>
    match trimEnd p rest with
    | [] => if p c then [] else [c]
    | d :: kept => c :: d :: kept

theorem trimEnd_append_dropped (p : Char → Bool) (cs : List Char) :
    ∃ dropped, cs = trimEnd p cs ++ dropped ∧ ∀ c ∈ dropped, p c = true := by
  induction cs with
  | nil => exact ⟨[], rfl, by simp⟩
  | cons c rest ih =>
    obtain ⟨dropped, hrest, hall⟩ := ih
    unfold trimEnd
    split
    · next hnil =>
      rw [hnil, List.nil_append] at hrest
      split
      · next hc => exact ⟨c :: rest, rfl, by simpa [hc, hrest] using hall⟩
      · exact ⟨rest, rfl, by simpa [hrest] using hall⟩
    · next d kept hcons =>
      exact ⟨dropped, by rw [hcons] at hrest; simp [hrest], hall⟩

end GrammarLab.Text
