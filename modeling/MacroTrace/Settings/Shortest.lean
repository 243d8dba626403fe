/-!
# Shortest decimals

The text of a binary floating-point number: the fewest significant digits that
read back as the same number and, of those, the ones nearest to it.
-/

namespace MacroTrace.Shortest

/-- A positive number `mantissa * 2 ^ exponent`. -/
structure Binary where
  mantissa : Nat
  exponent : Int
  deriving DecidableEq, Repr

/-- The finite positive number with these bits, its sign bit being clear. -/
def Binary.ofBits (bits : Nat) : Binary :=
  let fraction : Nat := bits % Nat.pow 2 52
  let biased : Nat := bits / Nat.pow 2 52 % Nat.pow 2 11
  if biased = 0 then ⟨fraction, -1074⟩
  else ⟨fraction + Nat.pow 2 52, Int.ofNat biased - 1075⟩

/-- Numerator and denominator of `mantissa * 2 ^ exponent`. -/
def ratio (mantissa : Nat) (exponent : Int) : Nat × Nat :=
  if 0 ≤ exponent then (mantissa * Nat.pow 2 exponent.toNat, 1)
  else (mantissa, Nat.pow 2 (-exponent).toNat)

/-- Four times the number and the ends of the interval of reals that round to
it, over one denominator: `(low, value, high, denominator)`. -/
def interval (number : Binary) : Nat × Nat × Nat × Nat :=
  let isPower := number.mantissa = Nat.pow 2 52 && -1074 < number.exponent
  let (scale, denominator) := ratio 1 (number.exponent - 2)
  let middle := 4 * number.mantissa * scale
  let below := if isPower then scale else 2 * scale
  (middle - below, middle, middle + 2 * scale, denominator)

/-- Whether `digits * 10 ^ power` lies in the interval of a number. -/
def readsBack (number : Binary) (digits : Nat) (power : Int) : Bool :=
  let (low, _, high, denominator) := interval number
  let scaled := digits * Nat.pow 10 power.toNat * denominator
  let unit := Nat.pow 10 (-power).toNat
  let even := number.mantissa % 2 = 0
  if even then low * unit ≤ scaled && scaled ≤ high * unit
  else low * unit < scaled && scaled < high * unit

/-- The multiple of `10 ^ power` at or below a number, as a count. -/
def floorCount (number : Binary) (power : Int) : Nat :=
  let (_, value, _, denominator) := interval number
  (value * Nat.pow 10 (-power).toNat) / (denominator * Nat.pow 10 power.toNat)

/-- Whether the multiple above the number is nearer than the one below. -/
def isAboveNearer (number : Binary) (count : Nat) (power : Int) : Bool :=
  let (_, value, _, denominator) := interval number
  let twice := 2 * value * Nat.pow 10 (-power).toNat
  let middle := (2 * count + 1) * denominator * Nat.pow 10 power.toNat
  middle < twice || (middle = twice && count % 2 = 1)

/-- The nearest multiple of `10 ^ power` that reads back as the number. -/
def atPower? (number : Binary) (power : Int) : Option Nat :=
  let below := floorCount number power
  let nearest := if isAboveNearer number below power then below + 1 else below
  let other := if nearest = below then below + 1 else below
  if readsBack number nearest power && nearest ≠ 0 then some nearest
  else if readsBack number other power && other ≠ 0 then some other
  else none

/-- Search from the power `power` downwards for the first decimal that reads
back. -/
def search (number : Binary) : Nat → Int → Nat × Int
  | 0, power => (floorCount number power, power)
  | fuel + 1, power =>
      match atPower? number power with
      | some digits => (digits, power)
      | none => search number fuel (power - 1)

/-- Move trailing zeros of the digits into the exponent. -/
def dropZeros : Nat → Nat → Int → Nat × Int
  | 0, digits, power => (digits, power)
  | fuel + 1, digits, power =>
      if digits % 10 = 0 && digits ≠ 0 then
        dropZeros fuel (digits / 10) (power + 1)
      else (digits, power)

/-- Digits and exponent of the shortest decimal of a positive number. -/
def decimal (number : Binary) : Nat × Int :=
  let (digits, power) := search number 700 310
  dropZeros 400 digits power

/-- The text of a decimal: positional when its first digit stands for a power
from `10 ^ -4` up to `10 ^ 15`, with an exponent of at least two digits
otherwise. -/
def render (digits : Nat) (power : Int) : String :=
  let spelled := (toString digits).toList
  let count := spelled.length
  let leading := power + count - 1
  if -4 ≤ leading && leading < 16 then
    if 0 ≤ power then
      String.ofList (spelled ++ List.replicate power.toNat '0') ++ ".0"
    else if 0 ≤ leading then
      let whole := leading.toNat + 1
      String.ofList (spelled.take whole ++ '.' :: spelled.drop whole)
    else
      String.ofList
        ('0' :: '.' :: (List.replicate ((-leading).toNat - 1) '0' ++ spelled))
  else
    let fraction := if count = 1 then [] else '.' :: spelled.drop 1
    let sign := if leading < 0 then '-' else '+'
    let exponent := (toString leading.natAbs).toList
    let padded := if exponent.length < 2 then '0' :: exponent else exponent
    String.ofList (spelled.take 1 ++ fraction ++ 'e' :: sign :: padded)

/-- The text of a number. -/
def text (number : Float) : String :=
  let bits := number.toBits.toNat
  let magnitude := bits % Nat.pow 2 63
  let sign := if Nat.pow 2 63 ≤ bits then "-" else ""
  if magnitude = 0 then sign ++ "0.0"
  else if magnitude / Nat.pow 2 52 = Nat.pow 2 11 - 1 then
    if magnitude % Nat.pow 2 52 = 0 then sign ++ "inf" else "nan"
  else
    let (digits, power) := decimal (Binary.ofBits magnitude)
    sign ++ render digits power

end MacroTrace.Shortest
