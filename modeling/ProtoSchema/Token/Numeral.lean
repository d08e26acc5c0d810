/-
Numerals: how numbers are written.

The longest numeral at the front of a text is read.  An exponent needs a digit, and a
hexadecimal numeral a digit behind its `0x`; without one the numeral ends before the
letter.  A leading zero makes an integer octal.  A zero takes with it any digits that
cannot make it octal, and stays zero.
-/
import ProtoSchema.Number.Decimal

namespace ProtoSchema

/-! ### Digits -/

def isOctalDigit (c : Char) : Bool := '0' ≤ c && c ≤ '7'

def isHexDigit (c : Char) : Bool :=
  c.isDigit || ('a' ≤ c && c ≤ 'f') || ('A' ≤ c && c ≤ 'F')

/-- The value of a digit, with letters for ten to fifteen. -/
def digitValue (c : Char) : Nat :=
  if c.isDigit then c.toNat - 48
  else if 'a' ≤ c then c.toNat - 87
  else c.toNat - 55

/-- The number that digits denote, the first one being the most significant. -/
def valueOfDigits (radix : Nat) (ds : List Char) : Nat :=
  ds.foldl (fun n d => n * radix + digitValue d) 0

/-! ### Numerals -/

/-- A number as it is written. -/
inductive Numeral where
  /-- A number with a point or an exponent. -/
  | float (value : Decimal)
  /-- An integer to some radix, by its digits. -/
  | integer (radix : Nat) (digits : List Char)
  /-- A zero that is not the start of an octal numeral. -/
  | zero
deriving DecidableEq, Repr

/-- The exponent at the front of a text, and the number of characters it takes. -/
def exponentPart? : List Char → Option (Int × Nat)
  | [] => none
  | e :: cs =>
    if e = 'e' ∨ e = 'E' then
      let (negative, sign, cs) :=
        match cs with
        | '+' :: cs => (false, 1, cs)
        | '-' :: cs => (true, 1, cs)
        | cs => (false, 0, cs)
      match cs.takeWhile Char.isDigit with
      | [] => none
      | ds =>
        let n : Int := valueOfDigits 10 ds
        some (if negative then -n else n, 1 + sign + ds.length)
    else none

/-- The digits of a hexadecimal numeral behind its zero. -/
def hexPart? : List Char → Option (List Char)
  | [] => none
  | x :: cs =>
    if x = 'x' ∨ x = 'X' then
      match cs.takeWhile isHexDigit with
      | [] => none
      | ds => some ds
    else none

/-- The integer that decimal digits make, by whether they start with a zero. -/
def Numeral.ofDigits : List Char → Numeral
  | '0' :: d :: ds => if isOctalDigit d then .integer 8 (d :: ds) else .zero
  | ['0'] => .zero
  | ds => .integer 10 ds

/--
The longest numeral at the front of a text, and the number of characters it takes.
The text starts with a digit, or with a point and a digit.
-/
def Numeral.read (cs : List Char) : Numeral × Nat :=
  let whole := cs.takeWhile Char.isDigit
  match cs.dropWhile Char.isDigit with
  | '.' :: rest =>
    let places := rest.takeWhile Char.isDigit
    let (e, width) := (exponentPart? (rest.dropWhile Char.isDigit)).getD (0, 0)
    (.float ⟨valueOfDigits 10 (whole ++ places), e - places.length⟩,
      whole.length + 1 + places.length + width)
  | rest =>
    match exponentPart? rest with
    | some (e, width) => (.float ⟨valueOfDigits 10 whole, e⟩, whole.length + width)
    | none =>
      if whole = ['0'] then
        match hexPart? rest with
        | some ds => (.integer 16 ds, 2 + ds.length)
        | none => (.zero, 1)
      else (Numeral.ofDigits whole, whole.length)

/-- Whether a character is a digit to some radix. -/
def isDigitTo (radix : Nat) (c : Char) : Bool := isHexDigit c && digitValue c < radix

/-- The value of an integer numeral, if the digits suit the radix and 64 bits hold it. -/
def integerValue? (radix : Nat) (ds : List Char) : Option UInt64 :=
  let n := valueOfDigits radix ds
  if ds.all (isDigitTo radix) ∧ n < 18446744073709551616 then some (UInt64.ofNat n) else none

end ProtoSchema
