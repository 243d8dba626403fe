import MacroTrace.Text.Blank

/-!
# Diagnostics

A diagnostic reports a problem at a position of a file.
-/

namespace MacroTrace

inductive Severity where
  | error
  | warning
  | information
  deriving DecidableEq, Repr

def Severity.label : Severity → String
  | error => "error"
  | warning => "warning"
  | information => "information"

/-- What a diagnostic is about. -/
inductive Diagnostic.Code where
  | argumentCount
  | undefinedMacro
  | expansionUndefined
  | redefinition
  | unbalancedParentheses
  deriving DecidableEq, Repr

namespace Diagnostic.Code

def label : Code → String
  | argumentCount => "macro-argument-count"
  | undefinedMacro => "undefined-macro"
  | expansionUndefined => "macro-expansion-undefined"
  | redefinition => "macro-redefinition"
  | unbalancedParentheses => "unbalanced-parentheses"

def severity : Code → Severity
  | argumentCount => .error
  | undefinedMacro => .warning
  | expansionUndefined => .warning
  | redefinition => .information
  | unbalancedParentheses => .warning

end Diagnostic.Code

/-- A problem with the name of `length` characters at a line and column, both
counted from one. -/
structure Diagnostic where
  path : String
  line : Nat
  column : Nat
  length : Nat
  code : Diagnostic.Code
  message : String
  deriving DecidableEq, Repr

namespace Diagnostic

def severity (diagnostic : Diagnostic) : Severity :=
  diagnostic.code.severity

/-- The line that shows a diagnostic. -/
def shown (diagnostic : Diagnostic) : String :=
  let severity := diagnostic.severity.label
  let code := diagnostic.code.label
  s!"{diagnostic.path}:{diagnostic.line}:{diagnostic.column}: " ++
    s!"{severity}: {diagnostic.message} [{code}]"

/-- Order by line, then by column. -/
def le (left right : Diagnostic) : Bool :=
  left.line <
    right.line || (left.line = right.line && left.column ≤ right.column)

end Diagnostic

end MacroTrace
