import MacroTrace.Source.Line
import MacroTrace.Text.Character

/-!
# Directives

Directives other than `#define` are blanked, so that the words of an include
path or a condition are not taken for uses of macros.
-/

namespace MacroTrace.Directive

/-- Whether the text begins with a word. -/
def startsWithWord (word text : Text) : Bool :=
  word.isPrefixOf text && !(text.drop word.length).head?.any Text.isWordChar

/-- Whether a line, its leading blanks apart, is a `#define`; `skip` are the
characters allowed behind the hash. -/
def isDefine (skip : Char → Bool) : Text → Bool
  | '#' :: rest => startsWithWord "define".toList (rest.dropWhile skip)
  | _ => false

/-- Whether a physical line begins a directive that is to be blanked. -/
def isHidden (line : Text) : Bool :=
  let stripped := Text.trimLeft line
  stripped.head? == some '#' && !isDefine Text.isBlank stripped

/-- Blank the lines of hidden directives; `continued` says that the first line
continues one. -/
def blankLines (continued : Bool) (done : List Line) : List Line → List Line
  | [] => done.reverse
  | line :: rest =>
      if continued || isHidden line.text then
        let blanked := { line with text := List.replicate line.text.length ' ' }
        blankLines (Line.isContinued line.text) (blanked :: done) rest
      else blankLines false (line :: done) rest

/-- Replace every directive other than `#define`, continuation lines included,
by spaces. -/
def blank (text : Text) : Text :=
  Line.render (blankLines false [] (Line.all text))

end MacroTrace.Directive
