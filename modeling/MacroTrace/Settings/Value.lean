import MacroTrace.Settings.Shortest
import MacroTrace.Text.Quoted

/-!
# Setting values

The values that a settings document can hold, and how a message shows them.
-/

namespace MacroTrace

/-- A calendar date. -/
structure Date where
  year : Nat
  month : Nat
  day : Nat
  deriving DecidableEq, Repr

/-- A time of day. -/
structure Time where
  hour : Nat
  minute : Nat
  second : Nat
  microsecond : Nat
  deriving DecidableEq, Repr

/-- How a moment relates to universal time. -/
inductive Offset where
  | none
  | universal
  /-- Ahead of universal time by a number of minutes. -/
  | ahead (minutes : Int)
  deriving DecidableEq, Repr

inductive Value where
  | null
  | bool (value : Bool)
  | int (value : Int)
  | float (value : Float)
  | string (value : String)
  | date (value : Date)
  | time (value : Time)
  | moment (day : Date) (clock : Time) (offset : Offset)
  | list (items : List Value)
  | table (entries : List (String × Value))
  deriving Inhabited

namespace Value

def commaSeparated (parts : List String) : String :=
  String.intercalate ", " parts

def dateParts (date : Date) : List String :=
  [toString date.year, toString date.month, toString date.day]

/-- The parts of a time; seconds and microseconds are left out when they are
zero. -/
def timeParts (time : Time) : List String :=
  let fine :=
    if time.microsecond ≠ 0 then
      [toString time.second, toString time.microsecond]
    else if time.second ≠ 0 then [toString time.second]
    else []
  [toString time.hour, toString time.minute] ++ fine

/-- The distance from universal time in days and seconds, the latter not
negative. -/
def offsetParts (minutes : Int) : List String :=
  let seconds := 60 * minutes
  let days := Int.fdiv seconds 86400
  let rest := Int.fmod seconds 86400
  (if days = 0 then [] else [s!"days={days}"]) ++ (if rest = 0 then [] else
    [s!"seconds={rest}"])

def zone : Offset → List String
  | .none => []
  | .universal => ["tzinfo=datetime.timezone.utc"]
  | .ahead minutes =>
      if minutes = 0 then ["tzinfo=datetime.timezone.utc"]
      else
        let parts := commaSeparated (offsetParts minutes)
        [s!"tzinfo=datetime.timezone(datetime.timedelta({parts}))"]

/-- A value as messages show it. -/
def shown : Value → String
  | null => "None"
  | bool true => "True"
  | bool false => "False"
  | int value => toString value
  | float value => Shortest.text value
  | string value => Text.quotedString value
  | date value => "datetime.date(" ++ commaSeparated (dateParts value) ++ ")"
  | time value => "datetime.time(" ++ commaSeparated (timeParts value) ++ ")"
  | moment day clock offset =>
      "datetime.datetime(" ++
        commaSeparated (dateParts day ++ timeParts clock ++ zone offset) ++ ")"
  | list items => "[" ++ commaSeparated (items.map shown) ++ "]"
  | table entries =>
      "\x7b" ++ commaSeparated (entries.map fun entry =>
        Text.quotedString entry.1 ++ ": " ++ shown entry.2) ++ "\x7d"
termination_by value => value
decreasing_by
  · have := List.sizeOf_lt_of_mem ‹_ ∈ items›
    simp
    omega
  · have member := List.sizeOf_lt_of_mem ‹_ ∈ entries›
    cases entry
    simp at member ⊢
    omega

end Value

end MacroTrace
