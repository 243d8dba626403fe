import MacroTrace.Text.Blank

/-!
# Uses of names

A use is a name together with the arguments of its call, if it is called.
-/

namespace MacroTrace

/-- A name, and its arguments if it is called.  A call may have no arguments. -/
structure Use where
  name : Text
  arguments : Option (List Text)
  deriving DecidableEq, Repr

namespace Use

def written (separator : Text) (use : Use) : Text :=
  match use.arguments with
  | none => use.name
  | some arguments =>
      use.name ++ '(' :: (Text.joinWith separator arguments ++ [')'])

/-- The use as it is shown. -/
def spelling (use : Use) : Text :=
  use.written [',', ' ']

/-- The use as it is identified on an expansion path. -/
def key (use : Use) : Text :=
  use.written [',']

end Use

end MacroTrace
