import MacroTrace.Settings.Value

/-!
# Settings

What controls expansion and presentation.  Settings are built from entries under
the names of the options or their camel-case spellings; of two entries for one
option the later one counts.
-/

namespace MacroTrace

/-- Which invocations a pass expands. -/
inductive Mode where
  /-- The leftmost invocation of the deepest level. -/
  | singleMacro
  /-- Every invocation of the deepest level. -/
  | singleLayer
  deriving DecidableEq, Repr

namespace Mode

def label : Mode → String
  | singleMacro => "single-macro"
  | singleLayer => "single-layer"

def ofLabel? (text : String) : Option Mode :=
  [singleMacro, singleLayer].find? (·.label == text)

end Mode

structure Settings where
  mode : Mode
  maxDepth : Nat
  stripParentheses : Bool
  detectTypes : Bool
  showDefinition : Bool
  deriving DecidableEq, Repr

namespace Settings

def default : Settings :=
  ⟨.singleLayer, 30, true, true, true⟩

def minDepthLimit : Nat := 1

def maxDepthLimit : Nat := 100

/-- The options that settings have. -/
inductive Setting where
  | mode
  | maxDepth
  | stripParentheses
  | detectTypes
  | showDefinition
  deriving DecidableEq, Repr

namespace Setting

def all : List Setting :=
  [mode, maxDepth, stripParentheses, detectTypes, showDefinition]

def label : Setting → String
  | mode => "expansion_mode"
  | maxDepth => "max_expansion_depth"
  | stripParentheses => "strip_extra_parentheses"
  | detectTypes => "detect_type_declarations"
  | showDefinition => "hover_show_definition"

def camelLabel : Setting → String
  | mode => "expansionMode"
  | maxDepth => "maxExpansionDepth"
  | stripParentheses => "stripExtraParentheses"
  | detectTypes => "detectTypeDeclarations"
  | showDefinition => "hoverShowDefinition"

def ofLabel? (text : String) : Option Setting :=
  all.find? (·.label == text)

/-- The option with this name in either spelling. -/
def ofAnyLabel? (text : String) : Option Setting :=
  all.find? fun setting => setting.label == text || setting.camelLabel == text

end Setting

/-- Why entries make no settings. -/
inductive Error where
  | unknownOption (key : String)
  | unknownMode (value : Value)
  | depthNotInteger
  | depthOutOfRange
  | notBoolean (setting : Setting)
  | unexpectedOverride (key : String)
  /-- The entry that should hold the options is no table. -/
  | notTable

def Error.message : Error → String
  | unknownOption key =>
      let shown := Text.quotedString key
      s!"Unknown configuration option: {shown}"
  | unknownMode value =>
      let shown := value.shown
      s!"Unknown expansion mode: {shown}"
  | depthNotInteger => "'max_expansion_depth' must be an int"
  | depthOutOfRange =>
      s!"'max_expansion_depth' must be between {minDepthLimit} " ++
        s!"and {maxDepthLimit}"
  | notBoolean setting => s!"'{setting.label}' must be a bool"
  | unexpectedOverride key =>
      s!"ExpansionConfig.__init__() got an unexpected keyword argument '{key}'"
  | notTable => "'macrolens' must be a table"

/-- Entries whose names are known. -/
abbrev Entries := List (Setting × Value)

/-- The value of an option; of two entries the later one counts. -/
def Entries.get? (entries : Entries) (setting : Setting) : Option Value :=
  (entries.reverse.find? (·.1 == setting)).map (·.2)

def readMode (base : Mode) : Option Value → Except Error Mode
  | none => .ok base
  | some (.string text) =>
      match Mode.ofLabel? text with
      | some mode => .ok mode
      | none => .error (.unknownMode (.string text))
  | some value => .error (.unknownMode value)

def readDepth (base : Nat) : Option Value → Except Error Nat
  | none => .ok base
  | some (.int depth) =>
      if minDepthLimit ≤ depth && depth ≤ maxDepthLimit then .ok depth.toNat
      else .error .depthOutOfRange
  | some _ => .error .depthNotInteger

def readBool (base : Bool) (setting : Setting) : Option Value →
    Except Error Bool
  | none => .ok base
  | some (.bool value) => .ok value
  | some _ => .error (.notBoolean setting)

/-- Change settings by entries.  The options are checked in a fixed order. -/
def change (base : Settings) (entries : Entries) : Except Error Settings := do
  let mode ← readMode base.mode (entries.get? .mode)
  let maxDepth ← readDepth base.maxDepth (entries.get? .maxDepth)
  let strip ← readBool base.stripParentheses .stripParentheses
      (entries.get? .stripParentheses)
  let detect ← readBool base.detectTypes .detectTypes
      (entries.get? .detectTypes)
  let showing ← readBool base.showDefinition .showDefinition
      (entries.get? .showDefinition)
  return ⟨mode, maxDepth, strip, detect, showing⟩

/-- Settings from entries under either spelling of their names. -/
def ofEntries (entries : List (String × Value)) : Except Error Settings := do
  let known ← entries.mapM fun (key, value) =>
    match Setting.ofAnyLabel? key with
    | some setting => Except.ok (setting, value)
    | none => Except.error (Error.unknownOption key)
  default.change known

/-- Change settings by those entries that are not null, under their own
names. -/
def override (base : Settings) (entries : List (String × Value)) :
    Except Error Settings := do
  let given := entries.filter fun (_, value) =>
    match value with
    | .null => false
    | _ => true
  let known ← given.mapM fun (key, value) =>
    match Setting.ofLabel? key with
    | some setting => Except.ok (setting, value)
    | none => Except.error (Error.unexpectedOverride key)
  base.change known

end Settings

end MacroTrace
