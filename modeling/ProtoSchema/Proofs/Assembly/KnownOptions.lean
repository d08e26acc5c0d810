/-
The options that are known, word by word.

Which options a declaration knows depends on its kind.  Here this is said as the language has it:
for every kind one table, with the word that an option is written by, what it sets, and the form
that its value must have.  Accounts of options refer to these tables and to nothing else, so they
say which word sets what without regard to how options are read.

Reading goes by the names and the forms that belong to the keys of a set.  They make a table as
well, and for every kind it is the same one.  A word that stands for two options, an option that no
word stands for, or one whose values are of another form would tell the two apart.
-/
import Mathlib.Data.List.Nodup
import ProtoSchema.Descriptor.OptionKey

namespace ProtoSchema

/-- An option that is known by a word: what it sets, and the form that its value must have. -/
structure KnownOption (κ : Type) where
  word : String
  key : κ
  form : OptionForm
deriving DecidableEq

/-! ### The tables -/

def FileOption.known : List (KnownOption FileOption) :=
  [⟨"java_package", .javaPackage, .text⟩,
   ⟨"java_outer_classname", .javaOuterClassname, .text⟩,
   ⟨"java_multiple_files", .javaMultipleFiles, .flag⟩,
   ⟨"java_generate_equals_and_hash", .javaGenerateEqualsAndHash, .flag⟩,
   ⟨"java_string_check_utf8", .javaStringCheckUtf8, .flag⟩,
   ⟨"optimize_for", .optimizeFor,
    .choice "google.protobuf.FileOptions.OptimizeMode"
      [("SPEED", 1), ("CODE_SIZE", 2), ("LITE_RUNTIME", 3)]⟩,
   ⟨"go_package", .goPackage, .text⟩,
   ⟨"cc_generic_services", .ccGenericServices, .flag⟩,
   ⟨"java_generic_services", .javaGenericServices, .flag⟩,
   ⟨"py_generic_services", .pyGenericServices, .flag⟩,
   ⟨"deprecated", .deprecated, .flag⟩,
   ⟨"cc_enable_arenas", .ccEnableArenas, .flag⟩,
   ⟨"objc_class_prefix", .objcClassPrefix, .text⟩,
   ⟨"csharp_namespace", .csharpNamespace, .text⟩,
   ⟨"swift_prefix", .swiftPrefix, .text⟩,
   ⟨"php_class_prefix", .phpClassPrefix, .text⟩,
   ⟨"php_namespace", .phpNamespace, .text⟩,
   ⟨"php_metadata_namespace", .phpMetadataNamespace, .text⟩,
   ⟨"ruby_package", .rubyPackage, .text⟩]

/-- Entries of maps are marked by the fields that make them, and by no option. -/
def MessageOption.known : List (KnownOption MessageOption) :=
  [⟨"message_set_wire_format", .messageSetWireFormat, .flag⟩,
   ⟨"no_standard_descriptor_accessor", .noStandardDescriptorAccessor, .flag⟩,
   ⟨"deprecated", .deprecated, .flag⟩,
   ⟨"map_entry", .mapEntry, .refused⟩]

/-- Two of these are properties of the field: its default, and its name in JSON. -/
def FieldOption.known : List (KnownOption FieldOption) :=
  [⟨"ctype", .ctype,
    .choice "google.protobuf.FieldOptions.CType" [("STRING", 0), ("CORD", 1), ("STRING_PIECE", 2)]⟩,
   ⟨"packed", .packed, .flag⟩,
   ⟨"jstype", .jstype,
    .choice "google.protobuf.FieldOptions.JSType"
      [("JS_NORMAL", 0), ("JS_STRING", 1), ("JS_NUMBER", 2)]⟩,
   ⟨"lazy", .lazy, .flag⟩,
   ⟨"deprecated", .deprecated, .flag⟩,
   ⟨"weak", .weak, .flag⟩,
   ⟨"default", .defaultValue, .deferred⟩,
   ⟨"json_name", .jsonName, .text⟩]

def EnumOption.known : List (KnownOption EnumOption) :=
  [⟨"allow_alias", .allowAlias, .flag⟩, ⟨"deprecated", .deprecated, .flag⟩]

def EnumValueOption.known : List (KnownOption EnumValueOption) :=
  [⟨"deprecated", .deprecated, .flag⟩]

def ServiceOption.known : List (KnownOption ServiceOption) :=
  [⟨"deprecated", .deprecated, .flag⟩]

def MethodOption.known : List (KnownOption MethodOption) :=
  [⟨"deprecated", .deprecated, .flag⟩,
   ⟨"idempotency_level", .idempotencyLevel,
    .choice "google.protobuf.MethodOptions.IdempotencyLevel"
      [("IDEMPOTENCY_UNKNOWN", 0), ("NO_SIDE_EFFECTS", 1), ("IDEMPOTENT", 2)]⟩]

/-- Oneofs and ranges of extensions know no option. -/
def NoOption.known : List (KnownOption NoOption) := []

/-! ### The tables that options are read by -/

namespace OptionKey

variable {κ : Type} [OptionKey κ]

/-- A key with its name and its form. -/
def entry (key : κ) : KnownOption κ := ⟨name key, key, form key⟩

/-- The keys of a set, each with its name and its form. -/
def entries (κ : Type) [OptionKey κ] : List (KnownOption κ) := all.map entry

end OptionKey

/-- A set of known options that is listed in full, with one name for each option. -/
class LawfulOptionKey (κ : Type) [OptionKey κ] : Prop where
  mem_all : ∀ key : κ, key ∈ OptionKey.all
  nodup_names : ((OptionKey.all : List κ).map OptionKey.name).Nodup

instance : LawfulOptionKey FileOption := ⟨fun key => by cases key <;> decide, by decide⟩

instance : LawfulOptionKey MessageOption := ⟨fun key => by cases key <;> decide, by decide⟩

instance : LawfulOptionKey FieldOption := ⟨fun key => by cases key <;> decide, by decide⟩

instance : LawfulOptionKey EnumOption := ⟨fun key => by cases key <;> decide, by decide⟩

instance : LawfulOptionKey EnumValueOption := ⟨fun key => by cases key; decide, by decide⟩

instance : LawfulOptionKey ServiceOption := ⟨fun key => by cases key; decide, by decide⟩

instance : LawfulOptionKey MethodOption := ⟨fun key => by cases key <;> decide, by decide⟩

instance : LawfulOptionKey NoOption := ⟨(nomatch ·), by decide⟩

namespace OptionKey

variable {κ : Type} [OptionKey κ] [LawfulOptionKey κ]

theorem name_injective {a b : κ} (h : name a = name b) : a = b :=
  List.inj_on_of_nodup_map LawfulOptionKey.nodup_names (LawfulOptionKey.mem_all a)
    (LawfulOptionKey.mem_all b) h

theorem mem_entries (key : κ) : entry key ∈ entries κ :=
  List.mem_map_of_mem (LawfulOptionKey.mem_all key)

/-- What is known of an option is its name and its form. -/
theorem mem_entries_iff {word : String} {key : κ} {form : OptionForm} :
    ⟨word, key, form⟩ ∈ entries κ ↔ word = name key ∧ form = OptionKey.form key := by
  constructor
  · intro h
    obtain ⟨key', -, heq⟩ := List.mem_map.mp h
    cases heq
    exact ⟨rfl, rfl⟩
  · rintro ⟨rfl, rfl⟩
    exact mem_entries key

/-- The option that is found for a word is the one with that name. -/
theorem ofName?_eq_some_iff {word : String} {key : κ} :
    ofName? κ word = some key ↔ name key = word := by
  unfold ofName?
  constructor
  · intro h
    simpa using List.find?_some h
  · intro h
    cases hfind : (all : List κ).find? (name · = word) with
    | none =>
        have := List.find?_eq_none.mp hfind key (LawfulOptionKey.mem_all key)
        exact absurd h (by simpa using this)
    | some found =>
        have hfound : name found = word := by simpa using List.find?_some hfind
        rw [name_injective (hfound.trans h.symm)]

/-! Options are read by the tables of the language. -/

theorem entries_file : entries FileOption = FileOption.known := rfl

theorem entries_message : entries MessageOption = MessageOption.known := rfl

theorem entries_field : entries FieldOption = FieldOption.known := rfl

theorem entries_enum : entries EnumOption = EnumOption.known := rfl

theorem entries_enumValue : entries EnumValueOption = EnumValueOption.known := rfl

theorem entries_service : entries ServiceOption = ServiceOption.known := rfl

theorem entries_method : entries MethodOption = MethodOption.known := rfl

theorem entries_none : entries NoOption = NoOption.known := rfl

end OptionKey

end ProtoSchema
