import GrammarLab.Assoc

/-!
# Tries

A trie stores values under words, one character a level; words with a common beginning share its
nodes. `find` is the view as a map. The longest match of a text is the longest stored word, other
than the empty one, with which the text begins.
-/

namespace GrammarLab

inductive Trie (α : Type) where
  | node (value : Option α) (children : List (Char × Trie α))

namespace Trie

variable {α : Type}

def empty : Trie α := .node none []

def value : Trie α → Option α
  | .node v _ => v

def children : Trie α → List (Char × Trie α)
  | .node _ kids => kids

def child (t : Trie α) (c : Char) : Option (Trie α) := t.children.lookup c

def insert (t : Trie α) (a : α) : List Char → Trie α
  | [] => .node (some a) t.children
  | c :: rest => .node t.value (Assoc.put c (((t.child c).getD empty).insert a rest) t.children)

def ofEntries (entries : List (List Char × α)) : Trie α :=
  entries.foldl (fun t e => t.insert e.2 e.1) empty

def find (t : Trie α) : List Char → Option α
  | [] => t.value
  | c :: rest => (t.child c).bind fun kid => kid.find rest

/-- Some word begins with the character. -/
def Starts (t : Trie α) (c : Char) : Prop := (t.child c).isSome
instance (t : Trie α) (c : Char) : Decidable (t.Starts c) :=
  inferInstanceAs (Decidable ((t.child c).isSome = true))

def longestMatch (t : Trie α) : List Char → Option (List Char × α)
  | [] => none
  | c :: rest =>
    match t.child c with
    | none => none
    | some kid =>
      match kid.longestMatch rest with
      | some (word, a) => some (c :: word, a)
      | none => kid.value.map fun a => ([c], a)

@[simp] theorem find_empty (w : List Char) : (empty : Trie α).find w = none := by
  cases w <;> rfl

theorem child_insert_cons (t : Trie α) (a : α) (c d : Char) (rest : List Char) :
    (t.insert a (c :: rest)).child d =
      if d = c then some (((t.child c).getD empty).insert a rest) else t.child d :=
  Assoc.lookup_put c d _ t.children

theorem find_insert (t : Trie α) (a : α) (w v : List Char) :
    (t.insert a w).find v = if v = w then some a else t.find v := by
  induction w generalizing t v with
  | nil => cases v <;> simp [insert, find, value, child, children]
  | cons c rest ih =>
    cases v with
    | nil => simp [insert, find, value]
    | cons d tail =>
      rw [find, child_insert_cons]
      by_cases hd : d = c
      · subst hd
        simp only [if_true, Option.bind_some, ih, List.cons.injEq, true_and, find]
        cases h : t.child d <;> simp
      · simp [hd, find]

end Trie

end GrammarLab
