/-
Everything that can be wrong with a source file.

A diagnostic is its cause together with the places it concerns.  Message, help, labels
and category are functions of it, so a cause that is found anywhere reads the same.
Each cause belongs to one of four categories: malformed tokens, token sequences outside
the grammar, statements in the wrong place, and declarations that break a rule.
-/
import ProtoSchema.Diagnostic.Expectation
import ProtoSchema.Span

namespace ProtoSchema

/-- The largest number of a message field. -/
def maxFieldNumber : Int := 536870911

/-- The reason a default value cannot be given. -/
inductive Undefaultable where
  | map | repeated | message
deriving DecidableEq, Repr

def Undefaultable.text : Undefaultable → String
  | .map => "map"
  | .repeated => "repeated"
  | .message => "message"

/-- A problem in a source file. -/
inductive Diagnostic where
  | invalidToken (char : Char) (span : Span)
  | integerOutOfRange (span : Span)
  | invalidStringCharacters (span : Span)
  | unterminatedString (span : Span)
  | invalidStringEscape (span : Span)
  | invalidUtf8String (span : Span)
  | unterminatedBlockComment (span : Span)
  | noSpaceBetweenIntAndIdent (span : Span)
  | unexpectedToken (expected : Expectation) (found : Token) (span : Span)
  | unexpectedEof (expected : Expectation) (span : Span)
  | invalidImport (span : Span)
  | negativeIdent (span : Span)
  | invalidRange (span : Span)
  | unterminatedBody (kind : BodyKind) (span : Span)
  | unknownSyntax (value : String) (span : Span)
  | syntaxNotFirst (span : Span)
  | duplicateSyntax (first second : Span)
  | duplicatePackage (first second : Span)
  | invalidMessageNumber (span : Span)
  | reservedMessageNumber (span : Span)
  | invalidEnumNumber (span : Span)
  | duplicateNumber (number : Int) (first second : Span)
  | duplicateName (name : String) (first second : Span)
  | reservedFieldNumber (number : Int) (span reserved : Span)
  | reservedFieldName (name : String) (span reserved : Span)
  | fieldNumberInExtensionRange (number : Int) (span range : Span)
  | unresolvedType (name : String) (span : Span)
  | invalidMessageType (name : String) (span : Span)
  | invalidMapFieldKeyType (span : Span)
  | mapFieldWithLabel (span : Span)
  | oneofFieldWithLabel (span : Span)
  /-- A map field inside a oneof. -/
  | invalidOneofFieldKind (span : Span)
  | emptyOneof (span : Span)
  /-- A map field inside an extend block. -/
  | invalidExtendFieldKind (span : Span)
  | requiredExtendField (span : Span)
  | proto3RequiredField (span : Span)
  | proto3DefaultValue (span : Span)
  | invalidDefault (reason : Undefaultable) (span : Span)
  | valueInvalidType (expected : ValueClass) (actual : String) (span : Span)
  | integerValueOutOfRange (expected : IntegerType) (actual : Int) (span : Span)
  | duplicateOption (name : String) (first second : Span)
  | mapEntryOptionSet (span : Span)
  | proto3FirstEnumValueNotZero (span : Span)
  | emptyEnum (span : Span)
deriving DecidableEq, Repr

namespace Diagnostic

/-- The place that a diagnostic is about.  A repetition is about the later place. -/
def span : Diagnostic → Span
  | invalidToken _ s | integerOutOfRange s | invalidStringCharacters s | unterminatedString s
  | invalidStringEscape s | invalidUtf8String s | unterminatedBlockComment s
  | noSpaceBetweenIntAndIdent s | unexpectedToken _ _ s | unexpectedEof _ s | invalidImport s
  | negativeIdent s | invalidRange s | unterminatedBody _ s | unknownSyntax _ s
  | syntaxNotFirst s | duplicateSyntax _ s | duplicatePackage _ s | invalidMessageNumber s
  | reservedMessageNumber s | invalidEnumNumber s | duplicateNumber _ _ s | duplicateName _ _ s
  | reservedFieldNumber _ s _ | reservedFieldName _ s _ | fieldNumberInExtensionRange _ s _
  | unresolvedType _ s | invalidMessageType _ s | invalidMapFieldKeyType s | mapFieldWithLabel s
  | oneofFieldWithLabel s | invalidOneofFieldKind s | emptyOneof s | invalidExtendFieldKind s
  | requiredExtendField s | proto3RequiredField s | proto3DefaultValue s | invalidDefault _ s
  | valueInvalidType _ _ s | integerValueOutOfRange _ _ s | duplicateOption _ _ s
  | mapEntryOptionSet s | proto3FirstEnumValueNotZero s | emptyEnum s => s

/-- Every place that a diagnostic names, with what is to be said about it. -/
def labels : Diagnostic → List (String × Span)
  | invalidToken _ s | noSpaceBetweenIntAndIdent s | unexpectedToken _ _ s | negativeIdent s =>
    [("found here", s)]
  | integerOutOfRange s => [("integer defined here", s)]
  | invalidStringCharacters s => [("invalid characters", s)]
  | unterminatedString s => [("string starts here", s)]
  | unterminatedBlockComment s => [("comment starts here", s)]
  | unexpectedEof _ s => [("end of file", s)]
  | unterminatedBody _ s => [("body starts here", s)]
  | duplicateSyntax a b | duplicatePackage a b =>
    [("first defined here", a), ("redefined here", b)]
  | duplicateNumber _ a b => [("first used here", a), ("used again here", b)]
  | duplicateName _ a b => [("first defined here…", a), ("…and again here", b)]
  | reservedFieldNumber _ s r | reservedFieldName _ s r =>
    [("field defined here", s), ("reserved here", r)]
  | fieldNumberInExtensionRange _ s r =>
    [("field defined here", s), ("extension range defined here", r)]
  | unresolvedType _ s | invalidMessageType _ s => [("used here", s)]
  | duplicateOption _ a b => [("first set here", a), ("set again here", b)]
  | mapEntryOptionSet s => [("set here", s)]
  | invalidStringEscape s | invalidUtf8String s | invalidImport s | invalidRange s
  | unknownSyntax _ s | syntaxNotFirst s | invalidMessageNumber s | reservedMessageNumber s
  | invalidEnumNumber s | invalidMapFieldKeyType s | mapFieldWithLabel s | oneofFieldWithLabel s
  | invalidOneofFieldKind s | emptyOneof s | invalidExtendFieldKind s | requiredExtendField s
  | proto3RequiredField s | proto3DefaultValue s | invalidDefault _ s | valueInvalidType _ _ s
  | integerValueOutOfRange _ _ s | proto3FirstEnumValueNotZero s | emptyEnum s =>
    [("defined here", s)]

/-- The sentence that describes a diagnostic. -/
def message : Diagnostic → String
  | invalidToken c _ => "invalid character '" ++ c.toString ++ "'"
  | integerOutOfRange _ => "integer is too large"
  | invalidStringCharacters _ => "invalid string character"
  | unterminatedString _ => "unterminated string"
  | invalidStringEscape _ => "invalid string escape"
  | invalidUtf8String _ => "string is not valid utf-8"
  | unterminatedBlockComment _ => "unterminated block comment"
  | noSpaceBetweenIntAndIdent _ =>
    "whitespace is required between an integer literal and an identifier"
  | unexpectedToken expected found _ =>
    "expected " ++ expected.text ++ ", but found '" ++ found.text ++ "'"
  | unexpectedEof expected _ => "expected " ++ expected.text ++ ", but reached end of file"
  | invalidImport _ => "invalid import path"
  | negativeIdent _ => "identifiers may not be negative"
  | invalidRange _ => "invalid range"
  | unterminatedBody kind _ => kind.text ++ " body is not closed"
  | unknownSyntax value _ => "unknown syntax '" ++ value ++ "'"
  | syntaxNotFirst _ => "the syntax statement must be the first statement in the file"
  | duplicateSyntax _ _ => "syntax is declared multiple times"
  | duplicatePackage _ _ => "package is declared multiple times"
  | invalidMessageNumber _ => "message numbers must be between 1 and " ++ toString maxFieldNumber
  | reservedMessageNumber _ => "message numbers between 19,000 and 19,999 are reserved"
  | invalidEnumNumber _ =>
    "enum numbers must be between " ++ toString IntegerType.signed32.min ++ " and "
      ++ toString IntegerType.signed32.max
  | duplicateNumber n _ _ => "field number '" ++ toString n ++ "' is already used"
  | duplicateName name _ _ => "name '" ++ name ++ "' is defined twice"
  | reservedFieldNumber n _ _ => "field number '" ++ toString n ++ "' is reserved"
  | reservedFieldName name _ _ => "field name '" ++ name ++ "' is reserved"
  | fieldNumberInExtensionRange n _ _ =>
    "field number '" ++ toString n ++ "' is within an extension range"
  | unresolvedType name _ => "unresolved type reference '" ++ name ++ "'"
  | invalidMessageType name _ => "'" ++ name ++ "' is not a message type"
  | invalidMapFieldKeyType _ => "invalid map key type"
  | mapFieldWithLabel _ => "map fields cannot have labels"
  | oneofFieldWithLabel _ => "oneof fields cannot have labels"
  | invalidOneofFieldKind _ => "map fields are not allowed in a oneof"
  | emptyOneof _ => "a oneof must have at least one field"
  | invalidExtendFieldKind _ => "map fields are not allowed in extensions"
  | requiredExtendField _ => "extension fields cannot be required"
  | proto3RequiredField _ => "required fields are not allowed in proto3"
  | proto3DefaultValue _ => "default values are not allowed in proto3"
  | invalidDefault reason _ => "default values are not allowed for " ++ reason.text ++ " fields"
  | valueInvalidType expected actual _ =>
    "expected value to be " ++ expected.text ++ ", but found '" ++ actual ++ "'"
  | integerValueOutOfRange expected actual _ =>
    "expected value to be " ++ expected.text ++ ", but the value " ++ toString actual
      ++ " is out of range"
  | duplicateOption name _ _ => "option '" ++ name ++ "' is set more than once"
  | mapEntryOptionSet _ => "the 'map_entry' option may not be set explicitly"
  | proto3FirstEnumValueNotZero _ => "the first enum value must be zero in proto3"
  | emptyEnum _ => "enums must have at least one value"

/-- Advice on how to mend the problem, for the causes that have one remedy. -/
def help? : Diagnostic → Option String
  | invalidImport _ =>
    some "imports must be relative paths using forward slashes, without '.' or '..' components"
  | negativeIdent _ => some "only 'inf' and 'nan' may be negated"
  | invalidRange _ => some "the start of a range must not be greater than the end"
  | unknownSyntax _ _ => some "possible values are 'proto2' and 'proto3'"
  | invalidMapFieldKeyType _ => some "map keys must be an integer, bool or string type"
  | integerValueOutOfRange expected _ _ =>
    some ("the value must be between " ++ toString expected.min ++ " and "
      ++ toString expected.max ++ " inclusive")
  | mapEntryOptionSet _ => some "use the 'map<K, V>' field syntax instead"
  | _ => none

/-- The phase of reading that a cause belongs to. -/
inductive Category where
  | lexical | grammatical | structural | semantic
deriving DecidableEq, Repr

def category : Diagnostic → Category
  | invalidToken .. | integerOutOfRange .. | invalidStringCharacters .. | unterminatedString ..
  | invalidStringEscape .. | invalidUtf8String .. | unterminatedBlockComment ..
  | noSpaceBetweenIntAndIdent .. => .lexical
  | unexpectedToken .. | unexpectedEof .. | invalidImport .. | negativeIdent .. | invalidRange ..
  | unterminatedBody .. => .grammatical
  | unknownSyntax .. | syntaxNotFirst .. | duplicateSyntax .. | duplicatePackage .. => .structural
  | _ => .semantic

/-! ### Order of appearance -/

/-- Puts a diagnostic before the first one that does not start earlier. -/
def insertByStart (d : Diagnostic) : List Diagnostic → List Diagnostic
  | [] => [d]
  | e :: es =>
    if d.span.start ≤ e.span.start then d :: e :: es else e :: insertByStart d es

/-- Diagnostics by where they start; those that start together keep their order. -/
def sortByStart (ds : List Diagnostic) : List Diagnostic := ds.foldr insertByStart []

theorem insertByStart_perm (d : Diagnostic) (es : List Diagnostic) :
    (insertByStart d es).Perm (d :: es) := by
  induction es with
  | nil => exact .refl _
  | cons e es ih =>
    simp only [insertByStart]
    split
    · exact .refl _
    · exact (ih.cons e).trans (.swap d e es)

/-- Sorting neither loses nor adds a diagnostic. -/
theorem sortByStart_perm (ds : List Diagnostic) : (sortByStart ds).Perm ds := by
  induction ds with
  | nil => exact .refl _
  | cons d ds ih => exact (insertByStart_perm d _).trans (ih.cons d)

end Diagnostic

end ProtoSchema
