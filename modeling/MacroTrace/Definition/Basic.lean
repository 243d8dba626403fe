import MacroTrace.Text.Blank

/-!
# Definitions

A definition gives a name a replacement text, or records that the name is
declared as a type.  A body with unbalanced parentheses carries a mark in front.
-/

namespace MacroTrace

/-- One definition of a name.  `parameters` is absent for a macro without a
parameter list. -/
structure Definition where
  name : Text
  parameters : Option (List Text)
  body : Text
  file : String
  line : Int
  isMacro : Bool
  deriving DecidableEq, Repr

/-- What follows the name of a variadic parameter. -/
def ellipsis : Text :=
  "...".toList

/-- The name of the variadic arguments when the parameter gives none. -/
def variadicDefault : Text :=
  "__VA_ARGS__".toList

/-- The name that a parameter has in the body. -/
def parameterName (parameter : Text) : Text :=
  if ellipsis.isSuffixOf parameter then
    let name := Text.trim (parameter.take (parameter.length - 3))
    if name.isEmpty then variadicDefault else name
  else parameter

namespace Definition

/-- The mark in front of an unbalanced body. -/
def unbalancedMark : Text :=
  "/*UNBALANCED*/ ".toList

def parameterList (definition : Definition) : List Text :=
  definition.parameters.getD []

def isFunctionLike (definition : Definition) : Bool :=
  definition.parameters.isSome

/-- The last parameter, if it takes all remaining arguments. -/
def variadicParameter? (definition : Definition) : Option Text :=
  definition.parameterList.getLast?.filter ellipsis.isSuffixOf

def isVariadic (definition : Definition) : Bool :=
  definition.variadicParameter?.isSome

/-- The parameters that take one argument each. -/
def fixedParameters (definition : Definition) : List Text :=
  if definition.isVariadic then definition.parameterList.dropLast
  else definition.parameterList

/-- The name that the variadic arguments have in the body. -/
def variadicName? (definition : Definition) : Option Text :=
  definition.variadicParameter?.map parameterName

def isUnbalanced (definition : Definition) : Bool :=
  unbalancedMark.isPrefixOf definition.body

/-- The body without the mark. -/
def shownBody (definition : Definition) : Text :=
  if definition.isUnbalanced then definition.body.drop unbalancedMark.length
  else definition.body

/-- Whether a use with these arguments can be expanded.  A macro with one
parameter can be called without arguments, which passes it an empty one. -/
def accepts (definition : Definition) (arguments : Option (List Text)) : Bool :=
  match definition.parameters, arguments with
  | none, none => true
  | some parameters, some arguments =>
      if definition.isVariadic then definition.fixedParameters.length ≤
        arguments.length
      else arguments.length == parameters.length ||
        (parameters.length == 1 && arguments.isEmpty)
  | _, _ => false

/-- The name with its parameter list. -/
def head (definition : Definition) : Text :=
  match definition.parameters with
  | none => definition.name
  | some parameters =>
      definition.name ++ '(' :: (Text.joinWith [',', ' '] parameters ++ [')'])

/-- The definition as a line of source; for a type, the note that stands for
it. -/
def spelling (definition : Definition) : Text :=
  if definition.isMacro then
    Text.trimRight ("#define ".toList ++ definition.head ++ ' ' ::
      definition.shownBody)
  else definition.body

end Definition

end MacroTrace
