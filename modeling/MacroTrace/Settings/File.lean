import MacroTrace.Settings.Basic
import MacroTrace.Text.Utf8
import MacroTrace.Toml.Document

/-!
# Settings files

A settings file is a TOML document.  The options stand in a table of their own,
or at the top of the document if there is no such table.
-/

namespace MacroTrace.Settings

/-- The name of the table that holds the options. -/
def tableName : String := "macrolens"

inductive FileError where
  | encoding (error : Utf8.Error)
  | document (error : Toml.Error)
  | settings (error : Settings.Error)

def FileError.message : FileError → String
  | encoding error => error.message
  | document error => error.message
  | settings error => error.message

/-- The options that the entries of a document give. -/
def optionsOf (entries : List (String × Value)) :
    Except Settings.Error (List (String × Value)) :=
  match entries.lookup tableName with
  | none => .ok entries
  | some (.table options) => .ok options
  | some _ => .error .notTable

/-- The options in the bytes of a file. -/
def readOptions (bytes : List UInt8) :
    Except FileError (List (String × Value)) := do
  let text ← (Utf8.decode bytes).mapError FileError.encoding
  let entries ← (Toml.parse text).mapError FileError.document
  (optionsOf entries).mapError FileError.settings

/-- The settings in the bytes of a file. -/
def ofBytes (bytes : List UInt8) : Except FileError Settings := do
  let options ← readOptions bytes
  (ofEntries options).mapError FileError.settings

end MacroTrace.Settings
