import MacroTrace.Text.Quoted

/-!
# Decoding bytes

Bytes are cut into pieces: each is a character or a part that is no beginning of
any character, as long as possible.  Reading a source file replaces such a part
by a mark; reading a document that has to be well-formed fails at the first one.
-/

namespace MacroTrace.Utf8

/-- What is wrong with an ill-formed part. -/
inductive Fault where
  /-- The first byte begins no character. -/
  | start
  /-- A byte does not continue the character. -/
  | continuation
  /-- The bytes end inside a character. -/
  | ending
  deriving DecidableEq, Repr

def Fault.message : Fault → String
  | start => "invalid start byte"
  | continuation => "invalid continuation byte"
  | ending => "unexpected end of data"

inductive Piece where
  | char (c : Char)
  | illFormed (bytes : List UInt8) (fault : Fault)
  deriving DecidableEq, Repr

/-- The number of bytes of a character with this first byte; zero if there is
none. -/
def width (lead : UInt8) : Nat :=
  if lead < 0x80 then 1
  else if lead < 0xC2 then 0
  else if lead < 0xE0 then 2
  else if lead < 0xF0 then 3
  else if lead < 0xF5 then 4
  else 0

def isContinuation (byte : UInt8) : Bool :=
  0x80 ≤ byte && byte < 0xC0

/-- Whether a byte can follow the first one.  Overlong forms, surrogates and
numbers beyond the last character are refused here. -/
def isSecond (lead byte : UInt8) : Bool :=
  isContinuation byte &&
    if lead = 0xE0 then 0xA0 ≤ byte
    else if lead = 0xED then byte < 0xA0
    else if lead = 0xF0 then 0x90 ≤ byte
    else if lead = 0xF4 then byte < 0x90
    else true

/-- The bytes that continue a character, at most `count` of them; `fits` is
asked of the first. -/
def continued (fits : UInt8 → Bool) : Nat → List UInt8 → List UInt8
  | 0, _ => []
  | _ + 1, [] => []
  | count + 1, byte :: rest =>
      if fits byte then byte :: continued isContinuation count rest else []

/-- The character with these bytes. -/
def character (lead : UInt8) (others : List UInt8) : Char :=
  let high := if others.isEmpty then lead.toNat
    else lead.toNat % Nat.pow 2 (6 - others.length)
  Char.ofNat (others.foldl (fun code byte => code * 64 + byte.toNat % 64) high)

/-- The piece at a first byte, and the number of further bytes in it. -/
def pieceAt (lead : UInt8) (rest : List UInt8) : Piece × Nat :=
  match width lead with
  | 0 => (.illFormed [lead] .start, 0)
  | count + 1 =>
      let others := continued (isSecond lead) count rest
      if others.length = count then (.char (character lead others), count)
      else if others.length = rest.length then
        (.illFormed (lead :: others) .ending, others.length)
      else (.illFormed (lead :: others) .continuation, others.length)

def piecesFrom (found : List Piece) : List UInt8 → List Piece
  | [] => found.reverse
  | lead :: rest =>
      let (piece, count) := pieceAt lead rest
      piecesFrom (piece :: found) (rest.drop count)
termination_by bytes => bytes.length
decreasing_by
  simp only [List.length_drop, List.length_cons]
  omega

/-- The pieces of a sequence of bytes, in order. -/
def pieces (bytes : List UInt8) : List Piece :=
  piecesFrom [] bytes

/-- What stands for an ill-formed part. -/
def replacement : Char := '�'

/-- The text of bytes, with a mark for each ill-formed part. -/
def decodeLossy (bytes : List UInt8) : Text :=
  (pieces bytes).map fun piece =>
    match piece with
    | .char c => c
    | .illFormed _ _ => replacement

/-- The first ill-formed part and where it starts. -/
structure Error where
  position : Nat
  bytes : List UInt8
  fault : Fault
  deriving DecidableEq, Repr

def Error.message (error : Error) : String :=
  let fault := error.fault.message
  let last := error.position + error.bytes.length - 1
  match error.bytes with
  | [byte] =>
      let shown := String.ofList (Text.hexDigits 2 byte.toNat)
      s!"'utf-8' codec can't decode byte 0x{shown} " ++
        s!"in position {error.position}: {fault}"
  | _ =>
      s!"'utf-8' codec can't decode bytes " ++
        s!"in position {error.position}-{last}: {fault}"

def decodeFrom (position : Nat) (written : Text) : List Piece →
    Except Error Text
  | [] => .ok written.reverse
  | .char c :: rest => decodeFrom (position + c.utf8Size) (c :: written) rest
  | .illFormed bytes fault :: _ => .error ⟨position, bytes, fault⟩

/-- The text of well-formed bytes. -/
def decode (bytes : List UInt8) : Except Error Text :=
  decodeFrom 0 [] (pieces bytes)

/-- Write every line end as a line feed.  `written` is the reversed text so
far. -/
def unifyLineEndsFrom (written : Text) : Text → Text
  | [] => written.reverse
  | '\r' :: '\n' :: rest => unifyLineEndsFrom ('\n' :: written) rest
  | c :: rest =>
      unifyLineEndsFrom ((if c = '\r' then '\n' else c) :: written) rest

/-- The text of a source file. -/
def sourceText (bytes : List UInt8) : Text :=
  unifyLineEndsFrom [] (decodeLossy bytes)

end MacroTrace.Utf8
