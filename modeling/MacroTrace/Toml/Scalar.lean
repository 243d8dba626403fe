import MacroTrace.Settings.Value
import MacroTrace.Toml.Quoted

/-!
# Numbers, dates and times of a document
-/

namespace MacroTrace.Toml

def isDecimal (c : Char) : Bool :=
  '0' ≤ c && c ≤ '9'

/-- The number given by exactly `count` decimal digits, if it lies between two
bounds. -/
def numeral? (count low high : Nat) (text : Text) : Option (Nat × Text) :=
  let digits := text.take count
  let value := Text.numeralValue digits
  if digits.length = count && digits.all isDecimal && low ≤
    value && value ≤ high then
    some (value, text.drop count)
  else none

/-- The text behind a character. -/
def behind? (c : Char) : Text → Option Text
  | [] => none
  | d :: rest => if d = c then some rest else none

/-- The microseconds that the digits behind a point give, six of them at
most. -/
def fraction (text : Text) : Nat × Text :=
  match text with
  | '.' :: rest =>
      let digits := rest.takeWhile isDecimal
      if digits.isEmpty then (0, text)
      else
        let first := digits.take 6
        (Text.numeralValue first * Nat.pow 10 (6 - first.length),
          rest.drop digits.length)
  | _ => (0, text)

def time? (text : Text) : Option (Time × Text) := do
  let (hour, text) ← numeral? 2 0 23 text
  let (minute, text) ← numeral? 2 0 59 (← behind? ':' text)
  let (second, text) ← numeral? 2 0 59 (← behind? ':' text)
  let (microsecond, text) := fraction text
  return (⟨hour, minute, second, microsecond⟩, text)

def date? (text : Text) : Option (Date × Text) := do
  let (year, text) ← numeral? 4 0 9999 text
  let (month, text) ← numeral? 2 1 12 (← behind? '-' text)
  let (day, text) ← numeral? 2 1 31 (← behind? '-' text)
  return (⟨year, month, day⟩, text)

def signedOffset? (text : Text) : Option (Offset × Text) := do
  let sign : Int ← match text.head? with
    | some '+' => some 1
    | some '-' => some (-1)
    | _ => none
  let (hours, text) ← numeral? 2 0 23 (text.drop 1)
  let (minutes, text) ← numeral? 2 0 59 (← behind? ':' text)
  return (.ahead (sign * (60 * hours + minutes : Nat)), text)

def offset (text : Text) : Offset × Text :=
  match text with
  | 'Z' :: rest => (.universal, rest)
  | 'z' :: rest => (.universal, rest)
  | _ => (signedOffset? text).getD (.none, text)

/-- The time that belongs to a date, behind a blank or a letter. -/
def clock? (text : Text) : Option (Time × Text) :=
  match text with
  | c :: rest => if c = 'T' || c = 't' || c = ' ' then time? rest else none
  | [] => none

def isLeap (year : Nat) : Bool :=
  year % 4 = 0 && (year % 100 ≠ 0 || year % 400 = 0)

def monthLength (year month : Nat) : Nat :=
  if month = 2 then (if isLeap year then 29 else 28)
  else if [4, 6, 9, 11].contains month then 30
  else 31

/-- Whether a date is in the calendar, which has no year zero. -/
def isCalendarDate (date : Date) : Bool :=
  1 ≤ date.year && date.day ≤ monthLength date.year date.month

/-- The date at the start of a text, with the time behind it. -/
def moment? (text : Text) : Option (Except Fault (Value × Text)) :=
  (date? text).map fun (date, rest) =>
    if isCalendarDate date then
      match clock? rest with
      | none => .ok (.date date, rest)
      | some (time, rest) =>
          let (offset, rest) := offset rest
          .ok (.moment date time offset, rest)
    else .error ⟨.invalidMoment, text⟩

/-- Further digits, each possibly behind an underscore. -/
def moreDigits (isDigit : Char → Bool) (found : Text) : Text → Text × Text
  | [] => (found.reverse, [])
  | '_' :: c :: rest =>
      if isDigit c then moreDigits isDigit (c :: found) rest
      else (found.reverse, '_' :: c :: rest)
  | c :: rest =>
      if isDigit c then moreDigits isDigit (c :: found) rest
      else (found.reverse, c :: rest)

/-- One digit at least. -/
def digits? (isDigit : Char → Bool) : Text → Option (Text × Text)
  | [] => none
  | c :: rest => if isDigit c then some (moreDigits isDigit [c] rest) else none

/-- The value of digits in a base. -/
def valueIn (base : Nat) (digits : Text) : Nat :=
  digits.foldl (fun value digit => value * base + (hexValue? digit).getD 0) 0

/-- The base that a letter behind a zero stands for. -/
def baseOf? (c : Char) : Option Nat :=
  if c = 'x' then some 16 else if c = 'b' then some 2 else if c = 'o' then
    some 8 else none

def basedNumber? : Text → Option (Nat × Text)
  | '0' :: letter :: rest => do
      let base ← baseOf? letter
      let (digits, rest) ← digits? (fun c => (hexValue? c).any (· < base)) rest
      return (valueIn base digits, rest)
  | _ => none

/-- The digits in front of a point: a single zero, or digits that begin with
another one. -/
def wholeDigits? (text : Text) : Option (Text × Text) :=
  match text with
  | '0' :: rest => some (['0'], rest)
  | _ => digits? isDecimal text

def sign (text : Text) : Bool × Text :=
  match text with
  | '-' :: rest => (true, rest)
  | '+' :: rest => (false, rest)
  | _ => (false, text)

/-- The digits behind a point, if there are any. -/
def pointDigits? : Text → Option (Text × Text)
  | '.' :: rest => digits? isDecimal rest
  | _ => none

def exponent? : Text → Option (Int × Text)
  | c :: rest => do
      if c = 'e' || c = 'E' then
        let (isNegative, rest) := sign rest
        let (digits, rest) ← digits? isDecimal rest
        let value : Int := Text.numeralValue digits
        return (if isNegative then -value else value, rest)
      else none
  | [] => none

def infinity : Float := 1.0 / 0.0

/-- Beyond this power of ten a number is infinite, and below its negative it is
zero. -/
def farPower : Int := 400

/-- The floating-point number nearest to digits times a power of ten. -/
def floatOf (isNegative : Bool) (digits : Text) (power : Int) : Float :=
  let value := Text.numeralValue digits
  let scale := (Nat.toDigits 10 value).length + power
  let magnitude : Float :=
    if value = 0 || scale < -farPower then 0.0
    else if farPower < scale then infinity
    else if 0 ≤ power then
      Float.ofScientific (value * Nat.pow 10 power.toNat) false 0
    else Float.ofScientific value true (-power).toNat
  if isNegative then -magnitude else magnitude

def number? (text : Text) : Option (Except Fault (Value × Text)) :=
  match basedNumber? text with
  | some (value, rest) => some (.ok (.int value, rest))
  | none =>
      let (isNegative, unsigned) := sign text
      (wholeDigits? unsigned).map fun (whole, rest) =>
        let (points, behindPoints) := (pointDigits? rest).getD ([], rest)
        let power := exponent? behindPoints
        if points.isEmpty && power.isNone then
          if maxDigits < whole.length then
            .error ⟨.longNumber whole.length, text⟩
          else
            let value : Int := Text.numeralValue whole
            .ok (.int (if isNegative then -value else value), rest)
        else
          let (power, rest) := power.getD (0, behindPoints)
          .ok (.float
            (floatOf isNegative (whole ++ points) (power - points.length)),
            rest)

/-- Infinity, or no number at all, with an optional sign. -/
def special? (text : Text) : Option (Value × Text) :=
  let (isNegative, unsigned) := sign text
  let rest := unsigned.drop 3
  if "inf".toList.isPrefixOf unsigned then
    some (.float (if isNegative then -infinity else infinity), rest)
  else if "nan".toList.isPrefixOf unsigned then some (.float (0.0 / 0.0), rest)
  else none

/-- A value that is neither a string nor has parts. -/
def scalar (text : Text) : Except Fault (Value × Text) :=
  if "true".toList.isPrefixOf text then .ok (.bool true, text.drop 4)
  else if "false".toList.isPrefixOf text then .ok (.bool false, text.drop 5)
  else
    match moment? text with
    | some reading => reading
    | none =>
        match time? text with
        | some (time, rest) => .ok (.time time, rest)
        | none =>
            match number? text with
            | some reading => reading
            | none =>
                match special? text with
                | some found => .ok found
                | none => .error ⟨.invalidValue, text⟩

end MacroTrace.Toml
