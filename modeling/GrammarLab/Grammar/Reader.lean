import GrammarLab.Config
import GrammarLab.Grammar
import GrammarLab.Text.Line

/-!
# Reading grammar text

Each content line is a rule: one left character, an arrow, and alternatives parted by bars. Rules
of one left symbol are gathered into one production. A draft is the grammar read so far; a reader
keeps the draft of its last reading, which after a malformed line holds the rules before it. The
empty marker is numbered before everything else and the end marker after it.
-/

namespace GrammarLab

open Text (Line contentLines)

structure Malformed where
  line : String
  number : Nat
  deriving DecidableEq, Repr

def Malformed.message (m : Malformed) : String :=
  "Cannot parse production '" ++ m.line ++ "' on line " ++ toString m.number ++
    ": expected the form 'X->alternatives'"

structure Rule where
  left : Char
  alternatives : List (List Char)
  deriving DecidableEq, Repr

/-- At least one character follows the arrow; what follows is cut at bars. -/
def Rule.ofLine? : List Char → Option Rule
  | left :: '-' :: '>' :: c :: rest => some ⟨left, (c :: rest).splitOn '|'⟩
  | _ => none

theorem Rule.ofLine?_eq_some_iff {cs : List Char} {r : Rule} :
    Rule.ofLine? cs = some r ↔ ∃ body, body ≠ [] ∧
      cs = r.left :: '-' :: '>' :: body ∧ r.alternatives = body.splitOn '|' := by
  constructor
  · intro h
    unfold Rule.ofLine? at h
    split at h
    · next left c rest =>
      cases h
      exact ⟨c :: rest, by simp, rfl, rfl⟩
    · exact absurd h (by simp)
  · rintro ⟨body, hne, rfl, ha⟩
    cases body with
    | nil => exact absurd rfl hne
    | cons c rest =>
      obtain ⟨left, alternatives⟩ := r
      cases ha
      rfl

/-- The kind a character asks for inside an alternative. -/
def GrammarConfig.kindOf (config : GrammarConfig) (c : Char) : Kind :=
  if String.singleton c = config.emptyMarker then .empty
  else if 'A' ≤ c ∧ c ≤ 'Z' then .variable
  else .terminal

structure Draft where
  symbols : SymbolTable := {}
  productions : List Production := []
  terminals : SymbolSet := ∅
  deriving DecidableEq, Repr

namespace Draft

/-- The empty marker is the first symbol of every draft. -/
def initial (config : GrammarConfig) : Draft :=
  { symbols := (SymbolTable.intern {} config.emptyMarker .empty).2 }

def readSymbol (config : GrammarConfig) (d : Draft) (c : Char) : Symbol × Draft :=
  let (s, table) := d.symbols.intern (String.singleton c) (config.kindOf c)
  (s, { d with
    symbols := table
    terminals := if s.IsTerminal then d.terminals.insert s else d.terminals })

def readSymbols (config : GrammarConfig) (d : Draft) : List Char → Candidate × Draft
  | [] => ([], d)
  | c :: rest =>
    let (s, d) := d.readSymbol config c
    let (ss, d) := d.readSymbols config rest
    (s :: ss, d)

/-- An alternative with no characters is the empty symbol alone. -/
def readAlternative (config : GrammarConfig) (empty : Symbol) (d : Draft) :
    List Char → Candidate × Draft
  | [] => ([empty], d)
  | cs => d.readSymbols config cs

def readAlternatives (config : GrammarConfig) (empty : Symbol) (d : Draft) :
    List (List Char) → List Candidate × Draft
  | [] => ([], d)
  | cs :: rest =>
    let (a, d) := d.readAlternative config empty cs
    let (as, d) := d.readAlternatives config empty rest
    (a :: as, d)

end Draft

/-- Adds candidates to the production of a left symbol, or starts one at the end. -/
def Production.gather (left : Symbol) (candidates : List Candidate) :
    List Production → List Production
  | [] => [⟨left, candidates⟩]
  | p :: rest =>
    if p.left = left then ⟨left, p.candidates ++ candidates⟩ :: rest
    else p :: Production.gather left candidates rest

namespace Draft

def readRule (config : GrammarConfig) (empty : Symbol) (d : Draft) (r : Rule) : Draft :=
  let (left, table) := d.symbols.intern (String.singleton r.left) .variable
  let (candidates, d) := { d with symbols := table }.readAlternatives config empty r.alternatives
  { d with productions := Production.gather left candidates d.productions }

/-- Reads rules up to the first line that is none. -/
def readLines (config : GrammarConfig) (empty : Symbol) (d : Draft) :
    List Line → Draft × Option Malformed
  | [] => (d, none)
  | l :: rest =>
    match Rule.ofLine? l.text with
    | some r => (d.readRule config empty r).readLines config empty rest
    | none => (d, some ⟨String.ofList l.text, l.number⟩)

/-- Numbers the end marker, if it is new. -/
def close (config : GrammarConfig) (d : Draft) : Draft :=
  { d with symbols := (d.symbols.intern config.endMarker .terminal).2 }

end Draft

def GrammarConfig.emptySymbol (config : GrammarConfig) : Symbol :=
  (SymbolTable.intern {} config.emptyMarker .empty).1

/-- The grammar of a draft whose lines are all read. -/
def Draft.toGrammar (config : GrammarConfig) (d : Draft) : Grammar :=
  { productions := d.productions
    terminals := d.terminals
    symbols := (d.close config).symbols
    empty := config.emptySymbol
    endMarker := (d.symbols.intern config.endMarker .terminal).1
    start := (d.close config).symbols.lookup config.startSymbol }

structure Reader where
  config : GrammarConfig
  draft : Draft := {}
  deriving DecidableEq, Repr

def Reader.read (r : Reader) (text : String) : Except Malformed Grammar × Reader :=
  match (Draft.initial r.config).readLines r.config r.config.emptySymbol
      (contentLines text.toList) with
  | (d, some m) => (.error m, { r with draft := d })
  | (d, none) => (.ok (d.toGrammar r.config), { r with draft := d.close r.config })

def Grammar.read (config : GrammarConfig) (text : String) : Except Malformed Grammar :=
  (Reader.read { config } text).1

/-- What a reader has read before has no part in its answer. -/
theorem Reader.read_eq (r : Reader) (text : String) :
    r.read text = Reader.read { config := r.config } text := by
  unfold Reader.read
  split <;> simp_all

end GrammarLab
