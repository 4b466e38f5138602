/-!
# HTML escapes

The five characters with a meaning in markup are replaced by entities, one kind after the other,
the ampersand first.
-/

namespace GrammarLab.Text

def replaceChar (c : Char) (entity : String) (cs : List Char) : List Char :=
  cs.flatMap fun d => if d = c then entity.toList else [d]

def escapeHtmlChars (cs : List Char) : List Char :=
  replaceChar '\'' "&#039;" <| replaceChar '"' "&quot;" <| replaceChar '>' "&gt;" <|
    replaceChar '<' "&lt;" <| replaceChar '&' "&amp;" cs

def escapeHtml (s : String) : String := String.ofList (escapeHtmlChars s.toList)

@[simp] theorem replaceChar_append (c : Char) (entity : String) (cs ds : List Char) :
    replaceChar c entity (cs ++ ds) = replaceChar c entity cs ++ replaceChar c entity ds :=
  List.flatMap_append

theorem escapeHtmlChars_append (cs ds : List Char) :
    escapeHtmlChars (cs ++ ds) = escapeHtmlChars cs ++ escapeHtmlChars ds := by
  simp [escapeHtmlChars]

end GrammarLab.Text
