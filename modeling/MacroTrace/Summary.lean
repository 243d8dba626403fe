import MacroTrace.Expansion.Basic
import MacroTrace.Similarity
import MacroTrace.Source.Comment

/-!
# Summaries

A summary explains a use in Markdown: its definition, the steps and the result
of its expansion, and similar names where a name is not defined.
-/

namespace MacroTrace

/-- The text of a summary, if there is anything to show, and what was logged. -/
structure Summary where
  text : Option String
  remarks : List Log.Entry
  deriving DecidableEq, Repr

namespace Summary

def codeBlock (text : Text) : String :=
  "```cpp\n" ++ String.ofList text ++ "\n```\n"

def inCode (text : Text) : String :=
  "`" ++ String.ofList text ++ "`"

def listed (names : List Text) : String :=
  String.intercalate ", " (names.map inCode)

/-- Where definitions stand. -/
def locations (definitions : List Definition) : String :=
  String.intercalate ", " (definitions.map fun definition =>
    s!"{definition.file}:{definition.line}")

/-- The summary of a name without definitions. -/
def ofUnknown (names : List Text) (name : Text) : Option String :=
  if Text.isMacroName name then
    match Similarity.suggest name names with
    | [] => none
    | similar => some ("**Did you mean:** " ++ listed similar ++ "?\n")
  else none

def definitionPart (settings : Settings) (definition : Definition) : String :=
  if settings.showDefinition then codeBlock definition.spelling else ""

def ofUnbalanced (settings : Settings) (definition : Definition) : String :=
  "⚠️ **Unbalanced parentheses in macro definition**\n\n" ++
    definitionPart settings definition ++
    "\nThis macro has mismatched parentheses and cannot be expanded."

def redefinitionPart (definitions : List Definition) : String :=
  if 1 < definitions.length then
    let count := definitions.length
    let places := locations definitions
    s!"\n⚠️ **{count} definitions found** ({places})\n"
  else ""

def stepsPart (steps : List Step) : String :=
  if 1 < steps.length then
    "\n**Expansion steps:**\n" ++ String.join (steps.map fun step =>
      "- " ++ inCode step.source ++ " → " ++ inCode step.target ++ "\n")
  else ""

def pastedPart (pasted : List Text) : String :=
  if pasted.isEmpty then ""
  else
    "\n**Macros created via concatenation:**\n" ++
      String.join (pasted.map fun name =>
        "- " ++ inCode name ++ "\n")

def suggestionsPart (names undefined : List Text) : String :=
  let suggestions := undefined.filterMap fun name =>
    match Similarity.suggest name names with
    | [] => none
    | similar =>
        some ("  - " ++ inCode name ++ ": Did you mean " ++
          listed similar ++ "?\n")
  if suggestions.isEmpty then ""
  else "\n**Suggestions for undefined macros:**\n" ++ String.join suggestions

/-- The summary of an expansion. -/
def ofExpansion (names : List Text) (definitions : List Definition)
    (expansion : Expansion) :
    String :=
  match expansion.error with
  | some error => "\n❌ **Expansion Error:**\n" ++ error.message ++ "\n"
  | none =>
      redefinitionPart definitions ++ stepsPart expansion.steps ++
        "\n**Final Result:**\n" ++
        codeBlock expansion.finalText ++ pastedPart expansion.pasted ++
        suggestionsPart names expansion.undefined

/-- The summary of a use.  `names` are the names that suggestions are made
from. -/
def ofUse (lookup : Lookup) (names : List Text) (settings : Settings)
    (use : Use) :
    Except Substitution.PlaceholderError Summary :=
  let definitions := lookup use.name
  match definitions with
  | [] => .ok ⟨ofUnknown names use.name, []⟩
  | definition :: _ =>
      if !definition.isMacro then .ok ⟨none, []⟩
      else if definition.isUnbalanced then
        .ok ⟨some (ofUnbalanced settings definition), []⟩
      else
        match Expansion.ofUse lookup settings use with
        | .error error => .error error
        | .ok expansion =>
            .ok ⟨some (definitionPart settings definition ++
              ofExpansion names definitions expansion), expansion.remarks⟩

/-- The summary of the use at an offset of a text.  Comments are ignored. -/
def atOffset (lookup : Lookup) (names : List Text) (settings : Settings)
    (text : Text)
    (offset : Int) : Except Substitution.PlaceholderError Summary :=
  match Use.at? (Comment.blank text) offset with
  | none => .ok ⟨none, []⟩
  | some use =>
      let shown := String.ofList use.spelling
      match ofUse lookup names settings use with
      | .error error => .error error
      | .ok summary =>
          .ok { summary with
            remarks := ⟨.debug, s!"Hover on {shown}"⟩ :: summary.remarks }

end Summary

end MacroTrace
