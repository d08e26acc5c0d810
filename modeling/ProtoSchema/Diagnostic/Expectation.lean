/-
What a place in the grammar or a value position asks for.

A diagnostic about something unexpected names what could have stood there instead.
Each such set of alternatives is one constructor here, so that a diagnostic holds the
place in the grammar and its wording is written once.
-/
import ProtoSchema.Keyword
import ProtoSchema.Number.IntegerType
import ProtoSchema.Token

namespace ProtoSchema

/-- The declarations whose members stand between braces. -/
inductive BodyKind where
  | message | oneof | extend | enum | service | method
deriving DecidableEq, Repr

/-- The word for a kind of body. -/
def BodyKind.text : BodyKind → String
  | .message => "message"
  | .oneof => "oneof"
  | .extend => "extend"
  | .enum => "enum"
  | .service => "service"
  | .method => "method"

/-- What ends a dotted name. -/
inductive Terminator where
  | word
  | mark (p : Punctuation)
deriving DecidableEq, Repr

namespace Terminator

/-- Whether a token is the one that ends the name. -/
def admits : Terminator → Token → Bool
  | word, .ident _ => true
  | mark p, .mark q => p = q
  | _, _ => false

def text : Terminator → String
  | word => "an identifier"
  | mark p => "'" ++ p.text ++ "'"

end Terminator

/-- What the grammar asks for at some place. -/
inductive Expectation where
  | mark (p : Punctuation)
  | keyword (k : Keyword)
  | identifier
  | integer
  | string
  | number
  | constant
  | typeName
  /-- Another statement of a file. -/
  | statement
  /-- Another member of a body, or its end. -/
  | member (kind : BodyKind)
  /-- What follows the word `import`. -/
  | importTarget
  /-- What follows the word `reserved`. -/
  | reservation
  /-- What follows the word `to`. -/
  | rangeEnd
  /-- What follows the types of a method. -/
  | methodEnd
  /-- What follows an option in brackets. -/
  | optionListEnd
  | optionNamePart
  /-- What follows a part of an option's name. -/
  | optionNameEnd
  /-- What follows a part of a dotted name. -/
  | nameEnd (t : Terminator)
deriving DecidableEq, Repr

/-- The alternatives as a message lists them. -/
def Expectation.text : Expectation → String
  | .mark p => "'" ++ p.text ++ "'"
  | .keyword k => "'" ++ k.text ++ "'"
  | .identifier => "an identifier"
  | .integer => "an integer"
  | .string => "a string literal"
  | .number => "a numeric literal"
  | .constant => "a constant"
  | .typeName => "a type name"
  | .statement =>
    "'enum', 'extend', 'import', 'message', 'option', 'package', 'service', 'syntax' or ';'"
  | .member .message => "a message field, oneof, reserved range, enum, message, option or '\x7d'"
  | .member .oneof => "a oneof field, option or '\x7d'"
  | .member .extend => "a field or '\x7d'"
  | .member .enum => "an enum value, reserved range, option or '\x7d'"
  | .member .service => "'rpc', 'option' or '\x7d'"
  | .member .method => "'option' or '\x7d'"
  | .importTarget => "a string literal, 'public' or 'weak'"
  | .reservation => "a positive integer or string"
  | .rangeEnd => "an integer or 'max'"
  | .methodEnd => "';' or '\x7b'"
  | .optionListEnd => "',' or ']'"
  | .optionNamePart => "an identifier or '('"
  | .optionNameEnd => "'.' or '='"
  | .nameEnd t => "'.' or " ++ t.text

/-! ### Values -/

/-- What the value of an option or a default must be. -/
inductive ValueClass where
  | boolean
  | string
  | float
  | integer (t : IntegerType)
  | enumValue (enum : String)
deriving DecidableEq, Repr

def ValueClass.text : ValueClass → String
  | .boolean => "either 'true' or 'false'"
  | .string => "a string"
  | .float => "a float"
  | .integer t => t.text
  | .enumValue enum => "a value of enum '" ++ enum ++ "'"

end ProtoSchema
