/-
Default values of fields.

A default value is stored as text.  What it must be, and how it is written, depends on
the type of the field.  If that is declared elsewhere, nothing can be checked and the
value is kept as it stands.
-/
import ProtoSchema.Assembly.Option
import ProtoSchema.Assembly.Type

namespace ProtoSchema

open Checked

/-- The range of the values of an integer type. -/
def ScalarType.integerType? : ScalarType → Option IntegerType
  | int32 | sint32 | sfixed32 => some .signed32
  | int64 | sint64 | sfixed64 => some .signed64
  | uint32 | fixed32 => some .unsigned32
  | uint64 | fixed64 => some .unsigned64
  | double | float | bool | string | bytes => none

namespace OptionValue

/-- A value that is an integer between two bounds, with the report of one that is not. -/
def checkBetween (v : OptionValue) (expected : ValueClass) (min max : BitVec 128)
    (outside : IntLiteral → Diagnostic) : Checked (Option Int) :=
  match v with
  | .int n =>
    match (n.between? min max).map BitVec.toInt with
    | some value => pure (some value)
    | none => do
      report (outside n)
      pure none
  | _ => v.refuse expected

/-- A value that is an integer in some range. -/
def checkInteger (v : OptionValue) (t : IntegerType) : Checked (Option Int) :=
  v.checkBetween (.integer t) (.ofInt 128 t.min) (.ofInt 128 t.max)
    fun n => .integerValueOutOfRange t n.value n.span

/-- A value that is a number, infinity, or not a number, by its text. -/
def checkFloat (v : OptionValue) : Checked (Option String) :=
  match v with
  | .float x _ => pure (some x.text)
  | .int n => pure (some n.text)
  | .ident negative name _ =>
    if name.text = "inf" then pure (some (if negative then "-inf" else "inf"))
    else if name.text = "nan" then pure (some "nan")
    else v.refuse .float
  | _ => v.refuse .float

/-- A value that is a value of an enum, by its name. -/
def checkEnumValue (v : OptionValue) (symbols : SymbolTable) (enum : FullName) :
    Checked (Option String) :=
  match v with
  | .ident false name _ =>
    if symbols.isEnumValue enum name.text then pure (some name.text)
    else v.refuse (.enumValue enum.text)
  | _ => v.refuse (.enumValue enum.text)

/-- A value of a built-in type, by its text. -/
def checkScalar (v : OptionValue) (s : ScalarType) : Checked (Option String) :=
  match s.integerType? with
  | some t => do
    let n ← v.checkInteger t
    pure (n.map toString)
  | none =>
    match s with
    | .bool => do
      let b ← v.checkFlag
      pure (b.map fun b => if b then "true" else "false")
    | .string => v.checkText
    | .bytes => do
      let bytes ← v.checkBytes
      pure (bytes.map Text.escapeBytes)
    | _ => v.checkFloat

/-- A value as it stands. -/
def verbatim : OptionValue → String
  | .string s => String.ofList (Utf8.decodeLossy s.bytes)
  | v => v.text

end OptionValue

/-- Why a field cannot have a default value, if it cannot. -/
def undefaultable? (kind : FieldKind) (label : Label) (type : FieldType) :
    Option Undefaultable :=
  match kind, label, type with
  | .map .., _, _ => some .map
  | _, .repeated, _ => some .repeated
  | _, _, .message _ => some .message
  | _, _, _ => none

/-- The default value of a field, from the option that sets it. -/
def Context.defaultValue (ctx : Context) (kind : FieldKind) (label : Label) (type : FieldType)
    (o : OptionSetting) : Checked (Option String) :=
  if ctx.dialect = .proto3 then do
    report (.proto3DefaultValue o.span)
    pure none
  else
    match undefaultable? kind label type with
    | some reason => do
      report (.invalidDefault reason o.span)
      pure none
    | none =>
      match type with
      | .scalar s => o.value.checkScalar s
      | .enum name => o.value.checkEnumValue ctx.symbols name
      | .message _ | .unknown _ => pure (some o.value.verbatim)

end ProtoSchema
