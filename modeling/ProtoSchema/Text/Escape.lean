/-
Two ways to write arbitrary bytes as printable text.

Both keep the printable ASCII characters except the two quotes and the backslash, and
both write line feed, carriage return and tabulator by their letters.  They differ in
the remaining bytes: the first writes two hexadecimal digits, the second three octal
ones.  Messages use the first.  Default values of byte fields use the second, whose
fixed width keeps a following digit apart from the escape.
-/

namespace ProtoSchema.Text

/-- A digit below sixteen, in lower case. -/
def hexDigit (n : Nat) : Char :=
  if n < 10 then Char.ofNat (48 + n) else Char.ofNat (87 + n)

/-- The escapes that both forms share, and the bytes that stand for themselves. -/
def escapeCommon? (b : UInt8) : Option (List Char) :=
  if b = 0x09 then some ['\\', 't']
  else if b = 0x0A then some ['\\', 'n']
  else if b = 0x0D then some ['\\', 'r']
  else if b = 0x22 then some ['\\', '"']
  else if b = 0x27 then some ['\\', '\'']
  else if b = 0x5C then some ['\\', '\\']
  else if 0x20 ≤ b ∧ b ≤ 0x7E then some [Char.ofNat b.toNat]
  else none

/-- One byte, with `\x` and two hexadecimal digits where no shorter form exists. -/
def escapeHex (b : UInt8) : List Char :=
  (escapeCommon? b).getD ['\\', 'x', hexDigit (b.toNat / 16), hexDigit (b.toNat % 16)]

/-- One byte, with a backslash and three octal digits where no shorter form exists. -/
def escapeOctal (b : UInt8) : List Char :=
  (escapeCommon? b).getD
    ['\\', hexDigit (b.toNat / 64), hexDigit (b.toNat / 8 % 8), hexDigit (b.toNat % 8)]

/-- Bytes between double quotes, as messages show them. -/
def quote (bytes : List UInt8) : String :=
  String.ofList ('"' :: bytes.flatMap escapeHex ++ ['"'])

/-- Bytes as the default value of a byte field stores them. -/
def escapeBytes (bytes : List UInt8) : String :=
  String.ofList (bytes.flatMap escapeOctal)

end ProtoSchema.Text
