import MacroTrace.Definition.Directive
import MacroTrace.Text.Word

/-!
# Declared type names

Names that a `typedef`, `struct`, `union` or `enum` declares, and the constants
of an enumeration.  Only names that look like macros are of interest.
-/

namespace MacroTrace.TypeName

/-- The text behind a bracket that is closed before another bracket of its kind
comes. -/
def afterBracket? (opening closing : Char) : Text → Option Text
  | [] => none
  | c :: rest =>
      if c = closing then some rest
      else if c = opening then none
      else afterBracket? opening closing rest

theorem afterBracket?_length
    {opening closing : Char} {text after : Text}
    (found : afterBracket? opening closing text = some after) :
    after.length < text.length := by
  induction text with
  | nil => simp [afterBracket?] at found
  | cons c rest ih =>
      rw [afterBracket?] at found
      split at found
      · cases found
        simp
      · split at found
        · cases found
        · have := ih found
          simp
          omega

/-- The text behind the innermost bracketed part that the text begins with, if
it begins with one. -/
def afterInnermost? : Text → Option Text
  | c :: rest =>
      if c = '\x7b' then afterBracket? '\x7b' '\x7d' rest
      else if c = '[' then afterBracket? '[' ']' rest
      else none
  | [] => none

theorem afterInnermost?_length
    {text after : Text}
    (found : afterInnermost? text = some after) :
    after.length < text.length := by
  unfold afterInnermost? at found
  split at found
  · split at found
    · have := afterBracket?_length found
      simp
      omega
    · split at found
      · have := afterBracket?_length found
        simp
        omega
      · cases found
  · cases found

/-- Replace every innermost bracketed part by a space, `written` being the
reversed text in front. -/
def eraseFrom (written text : Text) : Text :=
  match text with
  | [] => written.reverse
  | c :: rest =>
      match _found : afterInnermost? (c :: rest) with
      | some after => eraseFrom (' ' :: written) after
      | none => eraseFrom (c :: written) rest
termination_by text.length
decreasing_by
  · exact afterInnermost?_length _found
  · simp

/-- Erase innermost bracketed parts until none is left. -/
def eraseBrackets (text : Text) : Text :=
  let erased := eraseFrom [] text
  if erased.length < text.length then eraseBrackets erased else text
termination_by text.length

/-- Words that introduce a type and name none. -/
def keywords : List Text :=
  ["STRUCT".toList, "UNION".toList, "ENUM".toList]

/-- The names declared by the text behind `typedef`, in order of first
occurrence. -/
def typedefNames (text : Text) : List Text :=
  let names := (Word.macroNames (eraseBrackets text)).map (·.spelling)
  (names.filter fun name => !keywords.contains name).eraseDups

/-- The part of an enumeration between its first opening and its first closing
brace. -/
def enumBody? (text : Text) : Option Text :=
  if text.contains '\x7b' && text.contains '\x7d' then
    let upToBrace := text.takeWhile (· ≠ '\x7d')
    some ((upToBrace.dropWhile (· ≠ '\x7b')).drop 1)
  else none

/-- The constants of an enumeration that look like macros, in order. -/
def enumConstants (text : Text) : List Text :=
  match enumBody? text with
  | none => []
  | some body =>
      let names :=
        (Text.splitOn ',' body).map fun part =>
          Text.trim (part.takeWhile (· ≠ '='))
      names.filter Text.isMacroName

/-- The tag that follows a keyword at the start of a line. -/
def tag? (keyword line : Text) : Option Text :=
  match Definition.afterKeyword? keyword (Text.trimLeft line) with
  | some rest =>
      let tag := rest.takeWhile Text.isWordChar
      if Text.isMacroName tag then some tag else none
  | none => none

/-- Whether a line begins an enumeration without a tag. -/
def isAnonymousEnum (line : Text) : Bool :=
  let keyword := "enum".toList
  let stripped := Text.trimLeft line
  keyword.isPrefixOf stripped &&
    (Text.trimLeft (stripped.drop keyword.length)).head? == some '\x7b'

/-- Whether a typedef needs no further line. -/
def isCompleteTypedef (text : Text) : Bool :=
  text.count '\x7b' == text.count '\x7d' && text.contains ';'

/-- Whether an enumeration needs no further line.  A variable of an enumeration
type has no braces. -/
def isCompleteEnum (text : Text) : Bool :=
  text.contains '\x7d' || (!text.contains '\x7b' && text.contains ';')

/-- The record that a name is declared as a type. -/
def record (path : String) (line : Int) (kind : String)
    (name : Text) : Definition :=
  ⟨name, none, s!"/* {kind} */".toList, path, line, false⟩

end MacroTrace.TypeName
