/-
String literals.

The text behind an opening quote is read part by part: a character that stands for
itself, an escape, or something invalid.  The literal ends with its own quote; a line
feed or the end of the text cuts it short.  A backslash that starts no escape is
invalid by itself, an escape that denotes no byte or character is invalid as a whole,
and invalid parts that touch are reported together.
-/
import ProtoSchema.Diagnostic
import ProtoSchema.Text.Utf8
import ProtoSchema.Token.Numeral

namespace ProtoSchema

/-! ### Parts -/

/-- What stands at one place inside a literal. -/
inductive QuotedPart where
  /-- An ordinary character or a valid escape, by the bytes it stands for. -/
  | bytes (bs : List UInt8)
  /-- A quote of either kind. -/
  | quote (c : Char)
  | lineFeed
  | invalidEscape
  | invalidCharacter
deriving DecidableEq, Repr

/-- The byte that a one-letter escape stands for. -/
def letterEscape? (c : Char) : Option UInt8 :=
  if c = 'a' then some 0x07
  else if c = 'b' then some 0x08
  else if c = 't' then some 0x09
  else if c = 'n' then some 0x0A
  else if c = 'v' then some 0x0B
  else if c = 'f' then some 0x0C
  else if c = 'r' then some 0x0D
  else if c = '?' then some 0x3F
  else if c = '\\' then some 0x5C
  else if c = '\'' then some 0x27
  else if c = '"' then some 0x22
  else none

namespace QuotedPart

/-- An escape of a code point by `n` hexadecimal digits, and its width with backslash and letter. -/
def readCodePoint (n : Nat) (cs : List Char) : QuotedPart × Nat :=
  let ds := cs.take n
  if ds.length = n ∧ ds.all isHexDigit then
    let v := valueOfDigits 16 ds
    if v.isValidChar then (bytes (String.utf8EncodeChar (Char.ofNat v)), 2 + n)
    else (invalidEscape, 2 + n)
  else (invalidEscape, 1)

/-- The escape whose backslash stands before a text, and its width with the backslash. -/
def readEscape : List Char → QuotedPart × Nat
  | [] => (invalidEscape, 1)
  | c :: cs =>
    if c = 'x' ∨ c = 'X' then
      match (cs.take 2).takeWhile isHexDigit with
      | [] => (invalidEscape, 1)
      | ds => (bytes [UInt8.ofNat (valueOfDigits 16 ds)], 2 + ds.length)
    else if isOctalDigit c then
      let ds := ((c :: cs).take 3).takeWhile isOctalDigit
      let v := valueOfDigits 8 ds
      (if v < 256 then bytes [UInt8.ofNat v] else invalidEscape, 1 + ds.length)
    else if c = 'u' then readCodePoint 4 cs
    else if c = 'U' then readCodePoint 8 cs
    else
      match letterEscape? c with
      | some b => (bytes [b], 2)
      | none => (invalidEscape, 1)

/-- The part that starts with `c`, and the number of characters it takes. -/
def read (c : Char) (cs : List Char) : QuotedPart × Nat :=
  if c = '\\' then readEscape cs
  else if c = '\'' ∨ c = '"' then (quote c, 1)
  else if c = '\n' then (lineFeed, 1)
  else if c = '\x00' then (invalidCharacter, 1)
  else (bytes (String.utf8EncodeChar c), 1)

end QuotedPart

/-! ### Literals -/

/-- An invalid piece of a literal: an escape, or a character. -/
structure QuotedFault where
  isEscape : Bool
  span : Span
deriving DecidableEq, Repr

/-- The diagnostic for an invalid piece. -/
def QuotedFault.diagnostic (f : QuotedFault) : Diagnostic :=
  if f.isEscape then .invalidStringEscape f.span else .invalidStringCharacters f.span

/-- A literal behind its opening quote. -/
structure Quoted where
  /-- The bytes that the valid parts stand for. -/
  bytes : List UInt8
  /-- The runs of invalid parts, in order. -/
  faults : List QuotedFault
  /-- The offset at which the literal was cut short, if it was. -/
  cutAt : Option Nat
  /-- The number of characters, with the closing quote or the line feed. -/
  width : Nat
deriving DecidableEq, Repr

namespace Quoted

/-- The literal with one more character. -/
def widen (q : Quoted) : Quoted := { q with width := q.width + 1 }

/-- The literal with more bytes in front. -/
def addBytes (bs : List UInt8) (q : Quoted) : Quoted := { q with bytes := bs ++ q.bytes }

/-- The literal with a fault in front, which joins a fault that it touches. -/
def addFault (fault : QuotedFault) (q : Quoted) : Quoted :=
  match q.faults with
  | f :: fs =>
    if f.span.start = fault.span.stop then
      { q with faults := ⟨fault.isEscape, fault.span.through f.span⟩ :: fs }
    else { q with faults := fault :: f :: fs }
  | [] => { q with faults := [fault] }

/--
The literal at the front of a text, up to and with its closing `quote`.  The first
`skip` characters belong to a part that has been read already.
-/
def readFrom (quote : Char) : (skip offset : Nat) → List Char → Quoted
  | _, offset, [] => ⟨[], [], some offset, 0⟩
  | skip + 1, offset, c :: cs =>
    (readFrom quote skip (offset + c.utf8Size) cs).widen
  | 0, offset, c :: cs =>
    let (part, width) := QuotedPart.read c cs
    let next := offset + c.utf8Size
    let span : Span := ⟨offset, offset + Utf8.size ((c :: cs).take width)⟩
    match part with
    | .bytes bs => ((readFrom quote (width - 1) next cs).addBytes bs).widen
    | .quote q =>
      if q = quote then ⟨[], [], none, 1⟩
      else ((readFrom quote (width - 1) next cs).addBytes (String.utf8EncodeChar q)).widen
    | .lineFeed => ⟨[], [], some offset, 1⟩
    | .invalidEscape => ((readFrom quote (width - 1) next cs).addFault ⟨true, span⟩).widen
    | .invalidCharacter => ((readFrom quote (width - 1) next cs).addFault ⟨false, span⟩).widen

/-- The literal at the front of a text that stands behind an opening quote. -/
def read (quote : Char) (offset : Nat) (cs : List Char) : Quoted := readFrom quote 0 offset cs

/-- The diagnostics of a literal whose opening quote stands at `start`. -/
def diagnostics (q : Quoted) (start : Nat) : List Diagnostic :=
  q.faults.map QuotedFault.diagnostic ++
    (match q.cutAt with
     | some stop => [.unterminatedString ⟨start, stop⟩]
     | none => [])

end Quoted

end ProtoSchema
