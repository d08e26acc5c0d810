/-
The options that the language knows.

Each kind of declaration has its own set of known options.  A set is a type with the
spelling of each option and the form that its value must have.  Everything else about
options is the same for all sets and is written once over this interface.
-/

namespace ProtoSchema

/-- What the value of a known option must be, and what becomes of it. -/
inductive OptionForm where
  | flag
  | text
  /-- One of some words, each with its number, which belong to an enum. -/
  | choice (enum : String) (values : List (String × Nat))
  /-- An option that must not be written at all. -/
  | refused
  /-- An option whose value depends on the declaration and is checked with it. -/
  | deferred
deriving DecidableEq, Repr

/-- A set of known options. -/
class OptionKey (κ : Type) where
  all : List κ
  name : κ → String
  form : κ → OptionForm

/-- The known option of a name. -/
def OptionKey.ofName? (κ : Type) [OptionKey κ] (name : String) : Option κ :=
  (OptionKey.all : List κ).find? (OptionKey.name · = name)

/-! ### Files -/

inductive FileOption where
  | javaPackage | javaOuterClassname | javaMultipleFiles | javaGenerateEqualsAndHash
  | javaStringCheckUtf8 | optimizeFor | goPackage | ccGenericServices | javaGenericServices
  | pyGenericServices | deprecated | ccEnableArenas | objcClassPrefix | csharpNamespace
  | swiftPrefix | phpClassPrefix | phpNamespace | phpMetadataNamespace | rubyPackage
deriving DecidableEq, Repr

namespace FileOption

def all : List FileOption :=
  [javaPackage, javaOuterClassname, javaMultipleFiles, javaGenerateEqualsAndHash,
   javaStringCheckUtf8, optimizeFor, goPackage, ccGenericServices, javaGenericServices,
   pyGenericServices, deprecated, ccEnableArenas, objcClassPrefix, csharpNamespace,
   swiftPrefix, phpClassPrefix, phpNamespace, phpMetadataNamespace, rubyPackage]

def name : FileOption → String
  | javaPackage => "java_package"
  | javaOuterClassname => "java_outer_classname"
  | javaMultipleFiles => "java_multiple_files"
  | javaGenerateEqualsAndHash => "java_generate_equals_and_hash"
  | javaStringCheckUtf8 => "java_string_check_utf8"
  | optimizeFor => "optimize_for"
  | goPackage => "go_package"
  | ccGenericServices => "cc_generic_services"
  | javaGenericServices => "java_generic_services"
  | pyGenericServices => "py_generic_services"
  | deprecated => "deprecated"
  | ccEnableArenas => "cc_enable_arenas"
  | objcClassPrefix => "objc_class_prefix"
  | csharpNamespace => "csharp_namespace"
  | swiftPrefix => "swift_prefix"
  | phpClassPrefix => "php_class_prefix"
  | phpNamespace => "php_namespace"
  | phpMetadataNamespace => "php_metadata_namespace"
  | rubyPackage => "ruby_package"

def form : FileOption → OptionForm
  | javaMultipleFiles | javaGenerateEqualsAndHash | javaStringCheckUtf8 | ccGenericServices
  | javaGenericServices | pyGenericServices | deprecated | ccEnableArenas => .flag
  | optimizeFor =>
    .choice "google.protobuf.FileOptions.OptimizeMode"
      [("SPEED", 1), ("CODE_SIZE", 2), ("LITE_RUNTIME", 3)]
  | javaPackage | javaOuterClassname | goPackage | objcClassPrefix | csharpNamespace
  | swiftPrefix | phpClassPrefix | phpNamespace | phpMetadataNamespace | rubyPackage => .text

end FileOption

instance : OptionKey FileOption := ⟨FileOption.all, FileOption.name, FileOption.form⟩

/-! ### Messages and fields -/

inductive MessageOption where
  | messageSetWireFormat | noStandardDescriptorAccessor | deprecated | mapEntry
deriving DecidableEq, Repr

namespace MessageOption

def all : List MessageOption :=
  [messageSetWireFormat, noStandardDescriptorAccessor, deprecated, mapEntry]

def name : MessageOption → String
  | messageSetWireFormat => "message_set_wire_format"
  | noStandardDescriptorAccessor => "no_standard_descriptor_accessor"
  | deprecated => "deprecated"
  | mapEntry => "map_entry"

/-- Only map fields make map entries. -/
def form : MessageOption → OptionForm
  | mapEntry => .refused
  | _ => .flag

end MessageOption

instance : OptionKey MessageOption := ⟨MessageOption.all, MessageOption.name, MessageOption.form⟩

inductive FieldOption where
  | ctype | packed | jstype | lazy | deprecated | weak | defaultValue | jsonName
deriving DecidableEq, Repr

namespace FieldOption

def all : List FieldOption :=
  [ctype, packed, jstype, lazy, deprecated, weak, defaultValue, jsonName]

def name : FieldOption → String
  | ctype => "ctype"
  | packed => "packed"
  | jstype => "jstype"
  | lazy => "lazy"
  | deprecated => "deprecated"
  | weak => "weak"
  | defaultValue => "default"
  | jsonName => "json_name"

/-- The default value depends on the type of the field. -/
def form : FieldOption → OptionForm
  | ctype =>
    .choice "google.protobuf.FieldOptions.CType" [("STRING", 0), ("CORD", 1), ("STRING_PIECE", 2)]
  | jstype =>
    .choice "google.protobuf.FieldOptions.JSType"
      [("JS_NORMAL", 0), ("JS_STRING", 1), ("JS_NUMBER", 2)]
  | packed | lazy | deprecated | weak => .flag
  | defaultValue => .deferred
  | jsonName => .text

end FieldOption

instance : OptionKey FieldOption := ⟨FieldOption.all, FieldOption.name, FieldOption.form⟩

/-! ### Enums, services and methods -/

inductive EnumOption where
  | allowAlias | deprecated
deriving DecidableEq, Repr

namespace EnumOption

def name : EnumOption → String
  | allowAlias => "allow_alias"
  | deprecated => "deprecated"

end EnumOption

instance : OptionKey EnumOption := ⟨[.allowAlias, .deprecated], EnumOption.name, fun _ => .flag⟩

/-- The options of a value of an enum. -/
inductive EnumValueOption where
  | deprecated
deriving DecidableEq, Repr

instance : OptionKey EnumValueOption := ⟨[.deprecated], fun _ => "deprecated", fun _ => .flag⟩

inductive ServiceOption where
  | deprecated
deriving DecidableEq, Repr

instance : OptionKey ServiceOption := ⟨[.deprecated], fun _ => "deprecated", fun _ => .flag⟩

inductive MethodOption where
  | deprecated | idempotencyLevel
deriving DecidableEq, Repr

namespace MethodOption

def name : MethodOption → String
  | deprecated => "deprecated"
  | idempotencyLevel => "idempotency_level"

def form : MethodOption → OptionForm
  | deprecated => .flag
  | idempotencyLevel =>
    .choice "google.protobuf.MethodOptions.IdempotencyLevel"
      [("IDEMPOTENCY_UNKNOWN", 0), ("NO_SIDE_EFFECTS", 1), ("IDEMPOTENT", 2)]

end MethodOption

instance : OptionKey MethodOption :=
  ⟨[.deprecated, .idempotencyLevel], MethodOption.name, MethodOption.form⟩

/-- The known options of a oneof or of a range of extensions: there are none. -/
inductive NoOption
deriving DecidableEq, Repr

instance : OptionKey NoOption := ⟨[], (nomatch ·), (nomatch ·)⟩

end ProtoSchema
