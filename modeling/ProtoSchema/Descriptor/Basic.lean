/-
What a file declares, checked and with its references resolved.

A descriptor is what remains of a declaration when its layout is gone.  A part that
broke a rule is absent, so a descriptor can be had of every file that parses, and of a
file without diagnostics it is complete.
-/
import ProtoSchema.Descriptor.OptionKey
import ProtoSchema.Symbol.FullName
import ProtoSchema.Tree.File

namespace ProtoSchema

/-! ### References and types -/

/-- A reference to a type: resolved, or as it was written. -/
inductive TypeRef where
  | resolved (name : FullName)
  | written (name : TypeName)
deriving DecidableEq, Repr

/-- A resolved name has a dot in front. -/
def TypeRef.text : TypeRef → String
  | resolved name => "." ++ name.text
  | written name => name.text

/-- The type of a field. -/
inductive FieldType where
  | scalar (s : ScalarType)
  | message (name : FullName)
  | enum (name : FullName)
  /-- A name that the file does not declare as a type. -/
  | unknown (name : TypeName)
deriving DecidableEq, Repr

namespace FieldType

/-- The name of the type, unless it is built in. -/
def name? : FieldType → Option TypeRef
  | scalar _ => none
  | message n | enum n => some (.resolved n)
  | unknown n => some (.written n)

/-- The number of the kind of type, if it is known. -/
def number? : FieldType → Option Nat
  | scalar .double => some 1
  | scalar .float => some 2
  | scalar .int64 => some 3
  | scalar .uint64 => some 4
  | scalar .int32 => some 5
  | scalar .fixed64 => some 6
  | scalar .fixed32 => some 7
  | scalar .bool => some 8
  | scalar .string => some 9
  | message _ => some 11
  | scalar .bytes => some 12
  | scalar .uint32 => some 13
  | enum _ => some 14
  | scalar .sfixed32 => some 15
  | scalar .sfixed64 => some 16
  | scalar .sint32 => some 17
  | scalar .sint64 => some 18
  | unknown _ => none

end FieldType

/-- The number of a label. -/
def Label.number : Label → Nat
  | optional => 1
  | required => 2
  | repeated => 3

/-! ### Options -/

/-- The value of a known option. -/
inductive SettingValue where
  | flag (b : Bool)
  | text (s : String)
  | choice (n : Nat)
deriving DecidableEq, Repr

/-- The value of an option that is not known, by its form. -/
inductive CustomValue where
  | identifier (word : String)
  | positive (n : Nat)
  | negative (n : Int)
  | double (x : Binary64)
  | string (bytes : List UInt8)
  | aggregate (text : String)
deriving DecidableEq, Repr

/-- A part of the name of an option that is not known. -/
structure CustomNamePart where
  text : String
  isExtension : Bool
deriving DecidableEq, Repr

/-- An option that is not known; its value is absent if it cannot be stored. -/
structure CustomOption where
  name : List CustomNamePart
  value : Option CustomValue
deriving DecidableEq, Repr

/-- The options of a declaration: the known ones that are set, and all others. -/
structure Options (κ : Type) where
  settings : List (κ × SettingValue)
  custom : List CustomOption
deriving DecidableEq, Repr

/-- Options, unless there are none. -/
def Options.nonempty? {κ : Type} (o : Options κ) : Option (Options κ) :=
  if o.settings.isEmpty && o.custom.isEmpty then none else some o

/-! ### Declarations -/

structure FieldDescriptor where
  name : String
  number : Option Int
  label : Label
  /-- Absent only for the key of a map that has no legal type. -/
  type : Option FieldType
  /-- The message that an extension extends. -/
  extendee : Option TypeRef
  defaultValue : Option String
  /-- The place of the oneof of the field among those of its message. -/
  oneofIndex : Option Nat
  jsonName : String
  options : Option (Options FieldOption)
  proto3Optional : Bool
deriving DecidableEq, Repr

structure OneofDescriptor where
  name : String
  options : Option (Options NoOption)
deriving DecidableEq, Repr

/-- A range of numbers; a bound that is no legal number is absent. -/
structure RangeDescriptor where
  start : Option Int
  stop : Option Int
deriving DecidableEq, Repr

structure ExtensionRangeDescriptor where
  range : RangeDescriptor
  options : Option (Options NoOption)
deriving DecidableEq, Repr

structure EnumValueDescriptor where
  name : String
  number : Option Int
  options : Option (Options EnumValueOption)
deriving DecidableEq, Repr

structure EnumDescriptor where
  name : String
  values : List EnumValueDescriptor
  options : Option (Options EnumOption)
  /-- Ranges with both bounds included. -/
  reservedRanges : List RangeDescriptor
  reservedNames : List String
deriving DecidableEq, Repr

structure MessageDescriptor where
  name : String
  fields : List FieldDescriptor
  extensions : List FieldDescriptor
  nested : List MessageDescriptor
  enums : List EnumDescriptor
  /-- Ranges with the upper bound excluded. -/
  extensionRanges : List ExtensionRangeDescriptor
  /-- The declared oneofs, and behind them one for each optional field that needs one. -/
  oneofs : List OneofDescriptor
  options : Option (Options MessageOption)
  /-- Ranges with the upper bound excluded. -/
  reservedRanges : List RangeDescriptor
  reservedNames : List String
deriving Repr

structure MethodDescriptor where
  name : String
  input : TypeRef
  output : TypeRef
  options : Option (Options MethodOption)
  clientStreaming : Bool
  serverStreaming : Bool
deriving DecidableEq, Repr

structure ServiceDescriptor where
  name : String
  methods : List MethodDescriptor
  options : Option (Options ServiceOption)
deriving DecidableEq, Repr

structure FileDescriptor where
  name : String
  package : Option FullName
  dependencies : List String
  /-- The places of the public ones among the dependencies, and of the weak ones. -/
  publicDependencies : List Nat
  weakDependencies : List Nat
  messages : List MessageDescriptor
  enums : List EnumDescriptor
  services : List ServiceDescriptor
  extensions : List FieldDescriptor
  options : Option (Options FileOption)
  dialect : Dialect
deriving Repr

end ProtoSchema
