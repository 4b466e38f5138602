import GrammarLab.Parse.Trace
import GrammarLab.Table

/-!
# The predictive stack machine

A configuration is the stack above its bottom end marker and the input that remains. Each move
looks at the top of the stack and the first remaining symbol. With the stack down to the end
marker, the input is accepted exactly when the end marker is all that remains. A derivation takes
no input, so a machine may run for ever; a run is given a number of moves it may make.
-/

namespace GrammarLab

structure Configuration where
  above : List Symbol
  remaining : List Symbol
  deriving DecidableEq, Repr

inductive Cause where
  | undefined (s lookahead : Symbol)
  | noEntry (s lookahead : Symbol)
  deriving DecidableEq, Repr

def Cause.symbol : Cause → Symbol
  | .undefined s _ => s
  | .noEntry s _ => s

def Cause.lookahead : Cause → Symbol
  | .undefined _ a => a
  | .noEntry _ a => a

inductive Move where
  | consume (s : Symbol) (next : Configuration)
  | derive (s : Symbol) (c : Candidate) (next : Configuration)
  | accept
  | stuck (cause : Cause)
  deriving DecidableEq, Repr

/-- A terminal is matched before a row is looked for; only then does a missing row count. -/
def ParsingTable.move (t : ParsingTable) (endMarker : Symbol) (k : Configuration) : Move :=
  match k.above, k.remaining with
  | [], [] => .stuck (.noEntry endMarker endMarker)
  | top :: _, [] => .stuck (.noEntry top endMarker)
  | [], a :: rest => if a :: rest = [endMarker] then .accept else .stuck (.noEntry endMarker a)
  | top :: below, a :: rest =>
    if top.IsTerminal ∧ top = a then .consume top ⟨below, rest⟩ else
    match t.row top with
    | none => .stuck (.undefined top a)
    | some r =>
      match r.cell a with
      | none => .stuck (.noEntry top a)
      | some c => .derive top c ⟨c.body ++ below, a :: rest⟩

inductive Verdict where
  | accepted
  | rejected (cause : Cause)
  deriving DecidableEq, Repr

structure Run where
  trace : Trace
  verdict : Verdict
  deriving DecidableEq, Repr

def Run.after (s : Step) (r : Run) : Run := { r with trace := s :: r.trace }

def Configuration.stack (endMarker : Symbol) (k : Configuration) : List Symbol :=
  k.above ++ [endMarker]

/-- The run from a configuration, if it ends within the given number of moves. -/
def ParsingTable.run (t : ParsingTable) (endMarker : Symbol) : Nat → Configuration → Option Run
  | 0, _ => none
  | limit + 1, k =>
    match t.move endMarker k with
    | .consume s next =>
      (t.run endMarker limit next).map
        (Run.after ⟨k.stack endMarker, k.remaining, .consume s⟩)
    | .derive s c next =>
      (t.run endMarker limit next).map
        (Run.after ⟨k.stack endMarker, k.remaining, .derive s c⟩)
    | .accept => some ⟨[⟨k.stack endMarker, k.remaining.tail, .accept⟩], .accepted⟩
    | .stuck cause =>
      some ⟨[⟨k.stack endMarker, k.remaining, .stuck cause.symbol cause.lookahead⟩],
        .rejected cause⟩

/-- A finished run does not change when more moves are allowed. -/
theorem ParsingTable.run_mono (t : ParsingTable) (endMarker : Symbol) {limit more : Nat}
    (h : limit ≤ more) {k : Configuration} {r : Run} (hr : t.run endMarker limit k = some r) :
    t.run endMarker more k = some r := by
  induction limit generalizing more k r with
  | zero => simp [run] at hr
  | succ limit ih =>
    obtain ⟨more, rfl⟩ : ∃ n, more = n + 1 := ⟨more - 1, by omega⟩
    rw [run] at hr ⊢
    split <;> simp_all only [Option.map_eq_some_iff]
    · obtain ⟨tail, htail, rfl⟩ := hr
      exact ⟨tail, ih (by omega) htail, rfl⟩
    · obtain ⟨tail, htail, rfl⟩ := hr
      exact ⟨tail, ih (by omega) htail, rfl⟩

end GrammarLab
