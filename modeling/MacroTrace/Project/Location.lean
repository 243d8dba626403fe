import MacroTrace.Text.Blank

/-!
# Locations

A location is the list of names from the top of the file tree.  A path is a text
that leads to a location, from the top or from a current location.
-/

namespace MacroTrace

abbrev Location := List String

namespace Location

/-- The names between the slashes of a path.  Some of them may be empty. -/
def names (path : String) : List String :=
  (Text.splitOn '/' path.toList).map String.ofList

def isAbsolute (path : String) : Bool :=
  path.toList.head? == some '/'

/-- Where a path starts. -/
def start (current : Location) (path : String) : Location :=
  if isAbsolute path then [] else current

/-- Take one step from a location, without a look at the file tree. -/
def step (location : Location) (name : String) : Location :=
  if name == "" || name == "." then location
  else if name == ".." then location.dropLast
  else location ++ [name]

/-- The location that names lead to, without a look at the file tree. -/
def normalize (location : Location) (names : List String) : Location :=
  names.foldl step location

/-- The location that a path leads to, without a look at the file tree. -/
def ofPath (current : Location) (path : String) : Location :=
  normalize (start current path) (names path)

/-- The path from the top. -/
def spelled (location : Location) : String :=
  "/" ++ String.intercalate "/" location

/-- The path of names, or a dot if there are none. -/
def joined (names : List String) : String :=
  if names.isEmpty then "." else String.intercalate "/" names

/-- The number of names that two locations have in common at the start. -/
def common : Location → Location → Nat
  | a :: left, b :: right => if a == b then common left right + 1 else 0
  | _, _ => 0

/-- The path from one location to another. -/
def relative (origin location : Location) : String :=
  let shared := common origin location
  joined (List.replicate (origin.length - shared) ".." ++ location.drop shared)

/-- The path below a root, or the path from the top for locations elsewhere. -/
def below (location root : Location) : String :=
  if root.isPrefixOf location then joined (location.drop root.length)
  else spelled location

end Location

end MacroTrace
