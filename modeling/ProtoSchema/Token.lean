/-
The tokens of the schema language.

A token carries what the parser needs of it and nothing of its layout: an identifier
its spelling, a literal its value.  Its text is how messages show it, which for a
literal is one fixed spelling of the value.
-/
import ProtoSchema.Number.Binary64
import ProtoSchema.Text.Escape

namespace ProtoSchema

/-- A character that is a token by itself. -/
inductive Punctuation where
  | dot | minus | plus | leftParen | rightParen | leftBrace | rightBrace | leftBracket
  | rightBracket | leftAngle | rightAngle | comma | equals | colon | semicolon
deriving DecidableEq, Repr

namespace Punctuation

/-- The character of a mark. -/
def char : Punctuation → Char
  | dot => '.'
  | minus => '-'
  | plus => '+'
  | leftParen => '('
  | rightParen => ')'
  | leftBrace => '{'
  | rightBrace => '}'
  | leftBracket => '['
  | rightBracket => ']'
  | leftAngle => '<'
  | rightAngle => '>'
  | comma => ','
  | equals => '='
  | colon => ':'
  | semicolon => ';'

def all : List Punctuation :=
  [dot, minus, plus, leftParen, rightParen, leftBrace, rightBrace, leftBracket, rightBracket,
   leftAngle, rightAngle, comma, equals, colon, semicolon]

/-- The mark that a character is, if it is one. -/
def ofChar? (c : Char) : Option Punctuation := all.find? (·.char = c)

theorem ofChar?_char (p : Punctuation) : ofChar? p.char = some p := by cases p <;> decide

theorem char_of_ofChar? {c : Char} {p : Punctuation} (h : ofChar? c = some p) : p.char = c := by
  simpa using List.find?_some h

/-- The text of a mark. -/
def text (p : Punctuation) : String := p.char.toString

end Punctuation

/-- A word, a literal or a mark. -/
inductive Token where
  | ident (name : String)
  | int (value : UInt64)
  | float (value : Binary64)
  | string (bytes : List UInt8)
  | mark (p : Punctuation)
deriving DecidableEq, Repr

namespace Token

/-- A token as messages show it. -/
def text : Token → String
  | ident name => name
  | int value => toString value.toNat
  | float value => value.literalText
  | string bytes => Text.quote bytes
  | mark p => p.text

end Token

end ProtoSchema
