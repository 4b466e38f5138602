import Mathlib
import GrammarLab.Proofs.Spans

/-!
# Scanning by offsets

The scan as it reads a text: by the offsets of its characters, with one blank behind the source.
What can go wrong is a fault here: a character outside of the text, a symbol that starts and is not
found, a code that is not a number. `scanAt` is one round. Its loops stop where the functions on the
rest of the text do, and a code is a number whenever it is read as one.
-/

namespace GrammarLab.Lexer

open Text (decimalValue digitLimit)

inductive ScanFault where
  | outside (i : Nat)
  | unmatched (i : Nat)
  | notNumber (digits : List Char)
  deriving DecidableEq, Repr

/-- The blank ends every run and is there to be read behind a slash. -/
def padded (source : List Char) : List Char := source ++ [' ']

@[simp] theorem length_padded (source : List Char) : (padded source).length = source.length + 1 :=
  List.length_append

def charAt (text : List Char) (i : Nat) : Except ScanFault Char :=
  match text[i]? with
  | some c => .ok c
  | none => .error (.outside i)

def runEnd (p : Char → Bool) (text : List Char) (i : Nat) : Nat :=
  if h : i < text.length then
    if p text[i] then runEnd p text (i + 1) else i
  else i
termination_by text.length - i

/-- Where the next closing quote stands. Behind a backslash one offset is passed over, whether there
is a character or not. -/
def quoteEnd (quote : Char) (text : List Char) (i : Nat) : Nat :=
  if h : i < text.length then
    if text[i] = '\\' then quoteEnd quote text (i + 2)
    else if text[i] = quote then i
    else quoteEnd quote text (i + 1)
  else i
termination_by text.length - i

def findFrom (mark text : List Char) (i : Nat) : Option Nat :=
  if i < text.length then
    if mark <+: text.drop i then some i else findFrom mark text (i + 1)
  else none
termination_by text.length - i

def readNumber (digits : List Char) : Except ScanFault Nat :=
  if IsNumber digits ∧ digits.length ≤ digitLimit then .ok (decimalValue digits)
  else .error (.notNumber digits)

def significant (digits : List Char) : List Char :=
  if digits.dropWhile (· = '0') = [] then ['0'] else digits.dropWhile (· = '0')

def classifyChar (content : List Char) : Except ScanFault Category :=
  if content.length = 1 ∨ content.length = 2 ∧ content.head? = some '\\' then .ok .char
  else if content.head? = some '\\' ∧ IsNumber content.tail ∧
      (significant content.tail).length ≤ 3 then do
    let code ← readNumber (significant content.tail)
    return if code < codeLimit then .char else .error
  else .ok .error

/-- What a round does, decided by the character at hand and behind a slash by the next one. -/
inductive Branch where
  | lineFeed
  | word
  | number
  | blockComment
  | lineComment
  | delimiter
  | operator
  | literal
  | other
  deriving DecidableEq, Repr

def symbolBranch (c : Char) : Branch :=
  if String.singleton c ∈ delimiters then .delimiter
  else if symbolTrie.Starts c then .operator
  else if c = '"' ∨ c = '\'' then .literal
  else .other

def branchAt (text : List Char) (i : Nat) : Except ScanFault Branch := do
  let c ← charAt text i
  if c = '\n' then return .lineFeed
  else if c.isAlpha then return .word
  else if c.isDigit then return .number
  else if c = '/' then
    let d ← charAt text (i + 1)
    return if d = '*' then .blockComment else if d = '/' then .lineComment else symbolBranch c
  else return symbolBranch c

abbrev Finding := Category × List Char

def quotedAt (source : List Char) (i : Nat) : Except ScanFault (Finding × Nat) := do
  let text := padded source
  let quote ← charAt text i
  let stop := quoteEnd quote text (i + 1)
  if text.length ≤ stop then return ((.error, source.drop (i + 1)), text.length)
  let content := Span.slice ⟨i + 1, stop⟩ text
  if quote = '"' then return ((.string, content), stop + 1)
  return ((← classifyChar content, content), stop + 1)

/-- One round: what is found at the offset, and the offset of the next round. -/
def scanAt (source : List Char) (i : Nat) : Except ScanFault (Option Finding × Nat) := do
  let text := padded source
  match ← branchAt text i with
  | .lineFeed | .other => return (none, i + 1)
  | .word =>
    let stop := runEnd Char.isAlphanum text (i + 1)
    let lexeme := Span.slice ⟨i, stop⟩ text
    return (some (wordCategory lexeme, lexeme), stop)
  | .number =>
    let stop := runEnd (fun d => IsWordChar d) text (i + 1)
    let lexeme := Span.slice ⟨i, stop⟩ text
    return (some (if IsNumber lexeme then .number else .error, lexeme), stop)
  | .blockComment =>
    match findFrom ['*', '/'] source (i + 2) with
    | none => return (some (.error, source.drop i), text.length)
    | some stop => return (some (.blockComment, Span.slice ⟨i + 2, stop⟩ source), stop + 2)
  | .lineComment =>
    let stop := (findFrom ['\n'] source (i + 2)).getD source.length
    return (some (.comment, Span.slice ⟨i + 2, stop⟩ source), stop)
  | .delimiter => return (some (.delimiter, [← charAt text i]), i + 1)
  | .operator =>
    match symbolTrie.longestMatch (text.drop i) with
    | none => throw (.unmatched i)
    | some (lexeme, category) => return (some (category, lexeme), i + lexeme.length)
  | .literal =>
    let (literal, stop) ← quotedAt source i
    return (some literal, stop)

section Loops

variable {c quote : Char}

theorem charAt_append (before : List Char) (c : Char) (rest : List Char) :
    charAt (before ++ c :: rest) before.length = .ok c := by
  simp [charAt]

theorem charAt_append_succ (before : List Char) (c d : Char) (rest : List Char) :
    charAt (before ++ c :: d :: rest) (before.length + 1) = .ok d := by
  have hnext := charAt_append (before ++ [c]) d rest
  rwa [List.append_assoc, List.length_append] at hnext

theorem runEnd_append (p : Char → Bool) (before rest : List Char) :
    runEnd p (before ++ rest) before.length = before.length + (rest.takeWhile p).length := by
  induction rest generalizing before with
  | nil => simp [runEnd]
  | cons c rest ih =>
    have hnext := ih (before ++ [c])
    rw [List.append_assoc, List.length_append] at hnext
    rw [runEnd, dif_pos (by simp)]
    by_cases hc : p c
    · simp only [List.getElem_append_right le_rfl, Nat.sub_self, List.getElem_cons_zero, hc,
        if_true, List.takeWhile_cons_of_pos hc, List.length_cons]
      rw [List.singleton_append, List.length_singleton] at hnext
      omega
    · simp [hc]

theorem takeWhile_concat {p : Char → Bool} {d : Char} (hd : p d = false) (cs : List Char) :
    (cs ++ [d]).takeWhile p = cs.takeWhile p := by
  induction cs with
  | nil => simp [hd]
  | cons c cs ih =>
    rw [List.cons_append, List.takeWhile_cons, List.takeWhile_cons, ih]

theorem quoteEnd_cons (quote : Char) (before : List Char) (c : Char) (rest : List Char) :
    quoteEnd quote (before ++ c :: rest) before.length =
      if c = '\\' then quoteEnd quote (before ++ c :: rest) (before.length + 2)
      else if c = quote then before.length
      else quoteEnd quote (before ++ c :: rest) (before.length + 1) := by
  rw [quoteEnd]
  simp

theorem quoteEnd_of_length_le {text : List Char} {i : Nat} (h : text.length ≤ i) :
    quoteEnd quote text i = i := by
  rw [quoteEnd, dif_neg (Nat.not_lt.mpr h)]

theorem ne_backslash_of_plain {rest : List Char} (hlast : c = '\\' → rest = [] → False)
    (hback : ∀ d tail, c = '\\' → rest = d :: tail → False) : c ≠ '\\' := by
  rintro rfl
  cases rest with
  | nil => exact hlast rfl rfl
  | cons d tail => exact hback d tail rfl rfl

/-- Without a closing quote the loop stops at the end of the text, also where a backslash takes the
blank along. -/
theorem quoteEnd_append (hquote : quote ≠ ' ') (before body : List Char) :
    quoteEnd quote (before ++ (body ++ [' '])) before.length =
      before.length + ((quotedText quote body).map List.length).getD (body.length + 1) := by
  fun_induction quotedText quote body generalizing before with
  | case1 =>
    rw [List.nil_append, quoteEnd_cons, if_neg (by decide), if_neg hquote.symm]
    exact quoteEnd_of_length_le (by simp)
  | case2 =>
    rw [List.singleton_append, quoteEnd_cons, if_pos rfl]
    exact quoteEnd_of_length_le (by simp)
  | case3 c rest ih =>
    have hnext := ih (before ++ ['\\', c])
    rw [List.append_assoc, List.length_append] at hnext
    rw [List.cons_append, quoteEnd_cons, if_pos rfl]
    refine hnext.trans ?_
    cases quotedText quote rest
    · simp
      omega
    · simp
      omega
  | case4 rest hlast hback =>
    rw [List.cons_append, quoteEnd_cons, if_neg (ne_backslash_of_plain hlast hback), if_pos rfl]
    rfl
  | case5 c rest hlast hback hother ih =>
    have hnext := ih (before ++ [c])
    rw [List.append_assoc, List.length_append] at hnext
    rw [List.cons_append, quoteEnd_cons, if_neg (ne_backslash_of_plain hlast hback), if_neg hother]
    refine hnext.trans ?_
    cases quotedText quote rest
    · simp [Nat.add_comm, Nat.add_left_comm]
    · simp [Nat.add_comm, Nat.add_left_comm]

theorem le_quoteEnd (quote : Char) (text : List Char) (i : Nat) : i ≤ quoteEnd quote text i := by
  fun_induction quoteEnd quote text i <;> omega

theorem findFrom_cons (mark before : List Char) (c : Char) (rest : List Char) :
    findFrom mark (before ++ c :: rest) before.length =
      if mark <+: c :: rest then some before.length
      else findFrom mark (before ++ c :: rest) (before.length + 1) := by
  rw [findFrom]
  simp

theorem findFrom_length (mark before : List Char) : findFrom mark before before.length = none := by
  rw [findFrom, if_neg (lt_irrefl _)]

theorem findFrom_commentText (before body : List Char) :
    findFrom ['*', '/'] (before ++ body) before.length =
      (commentText body).map fun text => before.length + text.length := by
  fun_induction commentText body generalizing before with
  | case1 =>
    rw [List.append_nil]
    exact findFrom_length _ _
  | case2 rest =>
    rw [findFrom_cons, if_pos (by simp)]
    rfl
  | case3 c rest hopen ih =>
    have hmark : ¬['*', '/'] <+: c :: rest := by
      rintro ⟨after, hafter⟩
      obtain ⟨rfl, hslash⟩ := List.cons.inj hafter
      exact hopen after rfl hslash.symm
    have hnext := ih (before ++ [c])
    rw [List.append_assoc, List.length_append] at hnext
    rw [findFrom_cons, if_neg hmark]
    refine hnext.trans ?_
    cases commentText rest
    · rfl
    · simp [Nat.add_comm, Nat.add_left_comm]

theorem findFrom_lineFeed (before body : List Char) :
    (findFrom ['\n'] (before ++ body) before.length).getD (before ++ body).length =
      before.length + (body.takeWhile (· ≠ '\n')).length := by
  induction body generalizing before with
  | nil =>
    rw [List.append_nil, findFrom_length]
    simp
  | cons c rest ih =>
    have hnext := ih (before ++ [c])
    rw [List.append_assoc, List.length_append] at hnext
    rw [findFrom_cons]
    by_cases hc : c = '\n'
    · simp [hc]
    · rw [if_neg (by simpa using Ne.symm hc), List.takeWhile_cons_of_pos (by simpa using hc)]
      refine hnext.trans ?_
      simp
      omega

end Loops

section Faults

variable {α β : Type}

@[simp] theorem ok_bind (a : α) (f : α → Except ScanFault β) : (Except.ok a >>= f) = f a := rfl

@[simp] theorem pure_eq_ok (a : α) : (pure a : Except ScanFault α) = .ok a := rfl

end Faults

section Codes

variable {digits : List Char}

theorem isNumber_significant (h : IsNumber digits) : IsNumber (significant digits) := by
  unfold significant
  split
  · decide
  · next hne =>
    exact ⟨hne, fun c hc => h.2 c ((List.dropWhile_sublist _).subset hc)⟩

theorem isCharCode_iff_significant :
    IsCharCode digits ↔ IsNumber digits ∧ (significant digits).length ≤ 3 ∧
      decimalValue (significant digits) < codeLimit := by
  unfold IsCharCode significant
  split
  · next hzeros =>
    have hnone : decimalValue [] < codeLimit := by decide
    have hzero : decimalValue ['0'] < codeLimit := by decide
    simp [hzeros, hnone, hzero]
  · rfl

theorem readNumber_significant (h : IsNumber digits) (hlength : (significant digits).length ≤ 3) :
    readNumber (significant digits) = .ok (decimalValue (significant digits)) :=
  if_pos ⟨isNumber_significant h, hlength.trans (by decide)⟩

/-- The length is judged before the number is read, so the number is never refused. -/
theorem classifyChar_eq (content : List Char) :
    classifyChar content = .ok (charCategory content) := by
  match content with
  | [] => rfl
  | [c] => rfl
  | [c, d] =>
    by_cases hc : c = '\\'
    · subst hc
      rfl
    · simp [classifyChar, charCategory, IsCharContent, hc]
  | c :: d :: e :: rest =>
    let code := d :: e :: rest
    have hcontent : IsCharContent (c :: code) ↔
        (c = '\\' ∧ IsNumber code ∧ (significant code).length ≤ 3) ∧
          decimalValue (significant code) < codeLimit := by
      show c = '\\' ∧ IsCharCode code ↔ _
      rw [isCharCode_iff_significant, and_assoc, and_assoc]
    rw [classifyChar, if_neg (by simp), charCategory]
    simp only [List.head?_cons, List.tail_cons, Option.some.injEq]
    by_cases hcode : c = '\\' ∧ IsNumber code ∧ (significant code).length ≤ 3
    · have hlimit := (hcontent.trans (and_iff_right hcode)).symm
      rw [if_pos hcode, readNumber_significant hcode.2.1 hcode.2.2]
      exact congrArg Except.ok (if_congr hlimit rfl rfl)
    · rw [if_neg hcode, if_neg fun h => hcode (hcontent.mp h).1]

end Codes

end GrammarLab.Lexer
