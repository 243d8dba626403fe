import MacroTrace.Text.Character
import MacroTrace.Text.Span

/-!
# Words

A word is a maximal run of word characters.  Identifiers are the words that
begin with a letter or an underscore.
-/

namespace MacroTrace

/-- A word of a text, the offset at which it starts, the text in front of it,
reversed, and the text behind it. -/
structure Word where
  spelling : Text
  start : Nat
  before : Text
  after : Text
  deriving DecidableEq, Repr

namespace Word

def stop (word : Word) : Nat :=
  word.start + word.spelling.length

def span (word : Word) : Span Nat :=
  ⟨word.start, word.stop⟩

def isIdentifier (word : Word) : Bool :=
  word.spelling.head?.any Text.isIdentifierStart

/-- Whether an opening parenthesis follows, possibly behind blanks. -/
def isCalled (word : Word) : Bool :=
  (Text.trimLeft word.after).head? == some '('

/-- The offset of the first character behind the word that is not blank. -/
def next (word : Word) : Nat :=
  word.stop + (word.after.takeWhile Text.isBlank).length

/-- Complete the word whose reversed characters are `run`, if there are any. -/
def close (found : List Word) (before run : Text) (offset : Nat)
    (after : Text) : List Word :=
  if run.isEmpty then found
  else ⟨run.reverse, offset - run.length, before, after⟩ :: found

/-- The words of a text that stands at `offset`, `run` being the reversed word
under construction and `before` the reversed text in front of it. -/
def allFrom (found : List Word) (before run : Text) (offset : Nat) :
    Text → List Word
      | [] => (close found before run offset []).reverse
      | c :: rest =>
          if Text.isWordChar c then
            allFrom found before (c :: run) (offset + 1) rest
          else
            allFrom (close found before run offset (c :: rest))
              (c :: (run ++ before)) [] (offset + 1) rest

/-- The words of a text, in order. -/
def all (text : Text) : List Word :=
  allFrom [] [] [] 0 text

/-- The identifiers of a text, in order. -/
def identifiers (text : Text) : List Word :=
  (all text).filter isIdentifier

/-- The words of a text that look like macro names, in order. -/
def macroNames (text : Text) : List Word :=
  (all text).filter fun word => Text.isMacroName word.spelling

end Word

end MacroTrace
