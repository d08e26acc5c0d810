/-
Declarations as they are written.

The nodes keep what was written and where.  Whether a declaration makes sense is not
decided here: a oneof may hold a map field, and an enum may have no values.
-/
import ProtoSchema.ScalarType
import ProtoSchema.Tree.Value

namespace ProtoSchema

/-! ### Fields -/

/-- The word in front of a field. -/
inductive Label where
  | optional | required | repeated
deriving DecidableEq, Repr

/-- A type as a field names it. -/
inductive TypeUse where
  | scalar (type : ScalarType)
  | named (name : TypeName)
deriving DecidableEq, Repr

/-- The type of a field with its place: one type, or a map from keys to values. -/
inductive FieldKind where
  | plain (type : TypeUse) (span : Span)
  | map (key : TypeUse) (keySpan : Span) (value : TypeUse) (valueSpan : Span) (span : Span)
deriving DecidableEq, Repr

namespace FieldKind

def span : FieldKind → Span
  | plain _ s | map _ _ _ _ s => s

def isMap : FieldKind → Bool
  | plain .. => false
  | map .. => true

end FieldKind

structure Field where
  label : Option (Label × Span)
  kind : FieldKind
  name : Ident
  number : IntLiteral
  options : Option OptionList
  span : Span
deriving DecidableEq, Repr

/-! ### Ranges of numbers -/

/-- The end of a range: missing, a number, or the greatest number there is. -/
inductive RangeEnd where
  | same
  | to (n : IntLiteral)
  | max (span : Span)
deriving DecidableEq, Repr

structure NumberRange where
  start : IntLiteral
  stop : RangeEnd
deriving DecidableEq, Repr

def NumberRange.span (r : NumberRange) : Span :=
  match r.stop with
  | .same => r.start.span
  | .to n => r.start.span.through n.span
  | .max s => r.start.span.through s

/-- What a reservation reserves. -/
inductive ReservedKind where
  | ranges (rs : List NumberRange)
  | names (ns : List Ident)
deriving DecidableEq, Repr

structure Reserved where
  kind : ReservedKind
  span : Span
deriving DecidableEq, Repr

/-- Numbers that extensions may use. -/
structure Extensions where
  ranges : List NumberRange
  options : Option OptionList
  span : Span
deriving DecidableEq, Repr

/-! ### Declarations with a body -/

structure Oneof where
  name : Ident
  options : List OptionStatement
  fields : List Field
  span : Span
deriving DecidableEq, Repr

structure Extend where
  extendee : TypeName
  fields : List Field
  span : Span
deriving DecidableEq, Repr

structure EnumValue where
  name : Ident
  number : IntLiteral
  options : Option OptionList
  span : Span
deriving DecidableEq, Repr

structure Enum where
  name : Ident
  options : List OptionStatement
  values : List EnumValue
  reserved : List Reserved
  span : Span
deriving DecidableEq, Repr

structure Method where
  name : Ident
  input : TypeName
  output : TypeName
  options : List OptionStatement
  /-- The word `stream` before the input, and before the output. -/
  clientStreaming : Option Span
  serverStreaming : Option Span
  span : Span
deriving DecidableEq, Repr

structure Service where
  name : Ident
  options : List OptionStatement
  methods : List Method
  span : Span
deriving DecidableEq, Repr

mutual

/-- A message; its items keep their order, the other members are gathered by kind. -/
structure Message where
  name : Ident
  items : List MessageItem
  options : List OptionStatement
  reserved : List Reserved
  extensions : List Extensions
  span : Span

/-- A member of a message that declares a name. -/
inductive MessageItem where
  | field (f : Field)
  | oneof (o : Oneof)
  | message (m : Message)
  | enum (e : Enum)
  | extend (e : Extend)

end

end ProtoSchema
