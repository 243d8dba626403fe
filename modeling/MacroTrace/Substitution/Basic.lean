import MacroTrace.Source.Comment
import MacroTrace.Substitution.Occurrence
import MacroTrace.Substitution.Paste

/-!
# Substitution

Arguments take the place of parameters in two phases.  First every occurrence
becomes a numbered placeholder, then all placeholders are filled in, so that the
text of an argument is never taken for a parameter.  Pasting follows.
-/

namespace MacroTrace.Substitution

/-- A text with a backslash in front of every quote and backslash. -/
def escaped (text : Text) : Text :=
  text.flatMap fun c => if c = '\\' || c = '"' then ['\\', c] else [c]

theorem escaped_cons (c : Char) (text : Text) :
    escaped (c :: text) =
      if c = '\\' || c = '"' then '\\' :: c :: escaped text
      else c :: escaped text := by
  rw [escaped, List.flatMap_cons]
  split
  · rfl
  · rfl

/-- A text as a string literal. -/
def quoted (text : Text) : Text :=
  '"' :: (escaped text ++ ['"'])

/-- An argument as a string literal. -/
def stringify (argument : Text) : Text :=
  quoted (Comment.remove argument)

/-- The text that each parameter stands for.  A variadic parameter takes all
remaining arguments, a parameter without an argument is empty. -/
def values (parameters arguments : List Text) : List Text :=
  parameters.zipIdx.map fun (parameter, index) =>
    if ellipsis.isSuffixOf parameter then
      Text.joinWith [',', ' '] (arguments.drop index)
    else arguments[index]?.getD []

/-- The parameters with a plain use, by index, in order of their first plain
use. -/
def plainParameters (body : Text) (parameters : List Text) : List Nat :=
  (((Occurrence.all body parameters).filter (·.context = .plain)).map
    (·.parameter)).eraseDups

/-- What stands for a replacement between the two phases. -/
def placeholder (index : Nat) : Text :=
  '\x00' :: ((toString index).toList ++ ['\x00'])

/-- The body from `position` on with a placeholder for every occurrence,
numbered from `index`. -/
def templateFrom (body : Text) (position index : Nat) : List Occurrence → Text
  | [] => body.drop position
  | occurrence :: rest =>
      Text.slice body ⟨position, occurrence.start⟩ ++ placeholder index ++
        templateFrom body occurrence.stop (index + 1) rest

/-- Why placeholders cannot be filled in. -/
inductive PlaceholderError where
  /-- A body holds a placeholder of its own with no replacement. -/
  | noReplacement (index : Nat)
  /-- A body holds a placeholder of its own with too long a number. -/
  | longNumber (digits : Nat)
  deriving DecidableEq, Repr

/-- The longest number that a placeholder may hold, unless there are
replacements with longer ones. -/
def maxDigits : Nat := 4300

def PlaceholderError.message : PlaceholderError → String
  | noReplacement index => s!"No replacement {index}"
  | longNumber digits =>
      s!"Exceeds the limit ({maxDigits} digits) for integer string " ++
        s!"conversion: value has {digits} digits; use " ++
        "sys.set_int_max_str_digits() to increase the limit"

/-- The digits of the placeholder at the start of a text, and the text behind
it. -/
def takePlaceholder? : Text → Option (Text × Text)
  | '\x00' :: rest =>
      match rest.dropWhile Text.isDigit with
      | '\x00' :: after =>
          let digits := rest.takeWhile Text.isDigit
          if digits.isEmpty then none else some (digits, after)
      | _ => none
  | _ => none

theorem takePlaceholder?_length
    {text digits after : Text}
    (found : takePlaceholder? text = some (digits, after)) :
    after.length < text.length := by
  unfold takePlaceholder? at found
  split at found
  · rename_i rest
    split at found
    · rename_i behind equality
      have shorter : (rest.dropWhile Text.isDigit).length ≤ rest.length :=
        (List.dropWhile_sublist Text.isDigit).length_le
      rw [equality] at shorter
      simp only at found
      split at found
      · cases found
      · cases found
        simp at shorter ⊢
        omega
    · cases found
  · cases found

/-- Fill in the placeholders of a text; `written` is the reversed text in
front. -/
def fillFrom (replacements : List Text) (written text : Text) :
    Except PlaceholderError Text :=
  match text with
  | [] => .ok written.reverse
  | c :: rest =>
      match _found : takePlaceholder? (c :: rest) with
      | none => fillFrom replacements (c :: written) rest
      | some (digits, after) =>
          if maxDigits <
            digits.length && (toString replacements.length).length <
              digits.length then
            .error (.longNumber digits.length)
          else
            match replacements[Text.numeralValue digits]? with
            | none => .error (.noReplacement (Text.numeralValue digits))
            | some replacement =>
                fillFrom replacements (replacement.reverse ++ written) after
termination_by text.length
decreasing_by
  · simp
  · exact takePlaceholder?_length _found

/-- Replace the parameters of a body by arguments and paste.  `plain` gives, by
index, the text for the plain uses of a parameter; operands of `#` and `##` are
used as written. -/
def apply (body : Text) (parameters arguments : List Text)
    (plain : Nat → Text) :
    Except PlaceholderError Paste.Result :=
  let occurrences := Occurrence.all body parameters
  let raw := values parameters arguments
  let replacements := occurrences.map fun occurrence =>
    let value := raw[occurrence.parameter]?.getD []
    match occurrence.context with
    | .stringify => stringify value
    | .paste => value
    | .plain => plain occurrence.parameter
  match fillFrom replacements [] (templateFrom body 0 0 occurrences) with
  | .ok text => .ok (Paste.apply text)
  | .error error => .error error

/-- Replace the parameters of a body by arguments as written, and paste. -/
def applyRaw (body : Text) (parameters arguments : List Text) :
    Except PlaceholderError Paste.Result :=
  let raw := values parameters arguments
  apply body parameters arguments fun index => raw[index]?.getD []

/-- The replacements for occurrences, one after another.  The argument of a
parameter is expanded at the first plain use; `expanded` holds the texts for
parameters with earlier ones. -/
def replacementsWith {m : Type → Type u} [Monad m] (expand : Text → m Text)
    (raw : List Text) (expanded : List (Nat × Text)) : List Occurrence →
      m (List Text)
  | [] => pure []
  | occurrence :: rest => do
      let value := raw[occurrence.parameter]?.getD []
      match occurrence.context with
      | .stringify =>
          let later ← replacementsWith expand raw expanded rest
          pure (stringify value :: later)
      | .paste =>
          let later ← replacementsWith expand raw expanded rest
          pure (value :: later)
      | .plain =>
          match expanded.lookup occurrence.parameter with
          | some text =>
              let later ← replacementsWith expand raw expanded rest
              pure (text :: later)
          | none =>
              let text ← expand value
              let expanded := (occurrence.parameter, text) :: expanded
              let later ← replacementsWith expand raw expanded rest
              pure (text :: later)

/-- Replace the parameters of a body by arguments and paste.  `expand` is called
for the arguments of plain uses; operands of `#` and `##` are used as
written. -/
def applyWith {m : Type → Type u} [Monad m] (body : Text)
    (parameters arguments : List Text) (expand : Text → m Text) :
      m (Except PlaceholderError Paste.Result) := do
  let occurrences := Occurrence.all body parameters
  let replacements ← replacementsWith expand (values parameters arguments)
      [] occurrences
  pure (match fillFrom replacements [] (templateFrom body 0 0 occurrences) with
    | .ok text => .ok (Paste.apply text)
    | .error error => .error error)

end MacroTrace.Substitution
