/-
Defaults are what the types of their fields allow.

A default is checked when the type of its field is known, and it is stored as text.  What a type
allows is said here by the forms of values, without regard to how they are checked: integers within
bounds, numbers and two words that stand for numbers, two words for truth, strings of characters,
strings of bytes, and the values of an enum that the file declares.

The last of these is checked by a name that is put together from the name of the enum and the word
that is written.  Such names are unambiguous only if the word has no dots, and the enum has none in
its names.  The first holds because the words of options are tokens; the second because an enum is
found by a reference, and declarations and references are made of words too.

Bytes are stored with escapes.  Between quotes, what is stored is scanned as one string literal,
and that stands for the same bytes.
-/
import Mathlib.Algebra.Group.Int.Defs
import ProtoSchema.Proofs.Assembly.Accounts

namespace ProtoSchema

open Checked

/-! ### What types allow -/

/-- A text that is scanned, between quotes, as one string literal for some bytes. -/
def Text.Spells (text : String) (bytes : List UInt8) : Prop :=
  (scan ('"' :: (text.toList ++ ['"']))).map Lexeme.token? = [some (.string bytes)]

/-- The forms of defaults that built-in types allow. -/
inductive DefaultForm where
  | integer (least greatest : Int)
  | number
  | truth
  | characters
  | bytes

def ScalarType.defaultForm : ScalarType → DefaultForm
  | int32 | sint32 | sfixed32 => .integer (-2 ^ 31) (2 ^ 31 - 1)
  | int64 | sint64 | sfixed64 => .integer (-2 ^ 63) (2 ^ 63 - 1)
  | uint32 | fixed32 => .integer 0 (2 ^ 32 - 1)
  | uint64 | fixed64 => .integer 0 (2 ^ 64 - 1)
  | double | float => .number
  | bool => .truth
  | string => .characters
  | bytes => .bytes

/-- A value has a form, and is stored as some text. -/
inductive DefaultForm.Stores : DefaultForm → OptionValue → String → Prop
  | integer {least greatest : Int} {n : IntLiteral} : least ≤ n.value → n.value ≤ greatest →
      Stores (.integer least greatest) (.int n) (toString n.value)
  | float {x : Binary64} {span : Span} : Stores .number (.float x span) x.text
  | whole {n : IntLiteral} : Stores .number (.int n) n.text
  | infinity {negative : Bool} {name : Ident} {span : Span} : name.text = "inf" →
      Stores .number (.ident negative name span) (if negative then "-inf" else "inf")
  | notNumber {negative : Bool} {name : Ident} {span : Span} : name.text = "nan" →
      Stores .number (.ident negative name span) "nan"
  | truth {name : Ident} {span : Span} : name.text = "true" ∨ name.text = "false" →
      Stores .truth (.ident false name span) name.text
  | characters {s : StringLiteral} {cs : List Char} : Utf8.encode cs = s.bytes →
      Stores .characters (.string s) (String.ofList cs)
  | bytes {s : StringLiteral} {text : String} : Text.Spells text s.bytes →
      Stores .bytes (.string s) text

/-- A type of fields allows a value as a default: a built-in one, or an enum of the file. -/
inductive File.Stores (file : File) : FieldType → OptionValue → String → Prop
  | scalar {s : ScalarType} {v : OptionValue} {text : String} : s.defaultForm.Stores v text →
      Stores file (.scalar s) v text
  /-- The enum is one of that full name, wherever in the file it is declared. -/
  | enum {scope : FullName} {e : Enum} {value : EnumValue} {name : Ident} {span : Span} :
      file.Holds scope (.enum e) → value ∈ e.values → value.name.text = name.text →
        Stores file (.enum (scope.child e.name.text)) (.ident false name span) name.text

/-- Whether a type is known, and no message. -/
def FieldType.isPlain : FieldType → Bool
  | scalar _ | enum _ => true
  | message _ | unknown _ => false

/-- A default that can be checked is stored if its type allows it, and otherwise reported once. -/
def File.StoresFitting (file : File) : DefaultRule := fun f d o late =>
  file.dialect = .proto2 → d.label ≠ .repeated → f.kind.isMap = false →
    ∀ type, d.type = some type → type.isPlain = true →
      (∃ text, file.Stores type o.value text ∧ d.defaultValue = some text ∧ late = []) ∨
        (∀ text, ¬file.Stores type o.value text) ∧ d.defaultValue = none ∧ ∃ x, late = [x]

/-! ### Escaped bytes -/

theorem Text.spells_escapeBytes (bytes : List UInt8) : Text.Spells (escapeBytes bytes) bytes := by
  unfold Spells escapeBytes
  rw [String.toList_ofList]
  exact (plain_escaped escapes_octal bytes).scan_eq

/-! ### Built-in types -/

namespace OptionValue

/-- What a value is stored as, if it has a form. -/
def Settles (v : OptionValue) (form : DefaultForm) (stored : Option String) : Prop :=
  (∃ text, form.Stores v text ∧ stored = some text) ∨ (∀ text, ¬form.Stores v text) ∧ stored = none

theorem settles_checkInteger (v : OptionValue) (t : IntegerType) :
    v.Settles (.integer t.min t.max) ((v.checkInteger t).value.map toString) := by
  cases v with
  | int n =>
      rw [IntLiteral.checkInteger_eq]
      by_cases h : t.min ≤ n.value ∧ n.value ≤ t.max
      · rw [IntLiteral.verdict_of_between h]
        exact .inl ⟨_, .integer h.1 h.2, rfl⟩
      · rw [IntLiteral.verdict_of_not_between h]
        refine .inr ⟨?_, rfl⟩
        intro text htext
        cases htext with
        | integer hleast hgreatest => exact h ⟨hleast, hgreatest⟩
  | ident negative name span => exact .inr ⟨nofun, rfl⟩
  | float x span => exact .inr ⟨nofun, rfl⟩
  | string s => exact .inr ⟨nofun, rfl⟩
  | aggregate text span => exact .inr ⟨nofun, rfl⟩

theorem settles_checkFloat (v : OptionValue) : v.Settles .number v.checkFloat.value := by
  cases v with
  | ident negative name span =>
      rw [checkFloat]
      by_cases hinf : name.text = "inf"
      · rw [if_pos hinf]
        exact .inl ⟨_, .infinity hinf, rfl⟩
      by_cases hnan : name.text = "nan"
      · rw [if_neg hinf, if_pos hnan]
        exact .inl ⟨_, .notNumber hnan, rfl⟩
      · rw [if_neg hinf, if_neg hnan]
        refine .inr ⟨?_, rfl⟩
        intro text h
        cases h with
        | infinity h => exact hinf h
        | notNumber h => exact hnan h
  | int n => exact .inl ⟨_, .whole, rfl⟩
  | float x span => exact .inl ⟨_, .float, rfl⟩
  | string s => exact .inr ⟨nofun, rfl⟩
  | aggregate text span => exact .inr ⟨nofun, rfl⟩

theorem settles_checkFlag (v : OptionValue) :
    v.Settles .truth (v.checkFlag.value.map fun b => if b then "true" else "false") := by
  rcases v.checkFlag_cases with ⟨b, hreads, hcheck⟩ | ⟨hreads, hcheck⟩
  · rw [hcheck]
    cases hreads with
    | yes h => exact .inl ⟨_, .truth (.inl h), congrArg some h.symm⟩
    | no h => exact .inl ⟨_, .truth (.inr h), congrArg some h.symm⟩
  · rw [hcheck]
    refine .inr ⟨?_, rfl⟩
    intro text h
    cases h with
    | truth h =>
        rcases h with h | h
        · exact hreads _ (.yes h)
        · exact hreads _ (.no h)

theorem settles_checkText (v : OptionValue) : v.Settles .characters v.checkText.value := by
  rcases v.checkText_cases with ⟨text, hreads, hcheck⟩ | ⟨s, rfl, hbytes, hcheck⟩ | ⟨hs, -, hcheck⟩
  · rw [hcheck]
    cases hreads with
    | text h => exact .inl ⟨_, .characters h, rfl⟩
  · rw [hcheck]
    refine .inr ⟨?_, rfl⟩
    intro text h
    cases h with
    | characters h => exact hbytes _ h
  · rw [hcheck]
    refine .inr ⟨?_, rfl⟩
    intro text h
    cases h with
    | characters h => exact hs _ rfl

theorem settles_checkBytes (v : OptionValue) :
    v.Settles .bytes (v.checkBytes.value.map Text.escapeBytes) := by
  cases v with
  | string s => exact .inl ⟨_, .bytes (Text.spells_escapeBytes s.bytes), rfl⟩
  | ident negative name span => exact .inr ⟨nofun, rfl⟩
  | int n => exact .inr ⟨nofun, rfl⟩
  | float x span => exact .inr ⟨nofun, rfl⟩
  | aggregate text span => exact .inr ⟨nofun, rfl⟩

/-- A default of a built-in type is stored if it has the form that the type allows. -/
theorem settles_checkScalar (v : OptionValue) (s : ScalarType) :
    v.Settles s.defaultForm (v.checkScalar s).value := by
  cases s with
  | int32 | sint32 | sfixed32 => exact v.settles_checkInteger .signed32
  | int64 | sint64 | sfixed64 => exact v.settles_checkInteger .signed64
  | uint32 | fixed32 => exact v.settles_checkInteger .unsigned32
  | uint64 | fixed64 => exact v.settles_checkInteger .unsigned64
  | double | float => exact v.settles_checkFloat
  | bool => exact v.settles_checkFlag
  | string => exact v.settles_checkText
  | bytes => exact v.settles_checkBytes

end OptionValue

/-! ### Values of enums -/

namespace File

variable {file : File}

/-- The file declares a value by a name in an enum with some full name. -/
def DeclaresValue (file : File) (enum : FullName) (name : String) : Prop :=
  ∃ scope e value, file.Holds scope (.enum e) ∧ value ∈ (e : Enum).values ∧
    scope.child e.name.text = enum ∧ (value : EnumValue).name.text = name

theorem enumValue_of_mem_field {f : Field} {scope : FullName} {d : Declared}
    (hd : d ∈ f.declared scope) : d.enumValue = none := by
  rcases List.mem_cons.mp hd with rfl | hd
  · rfl
  · split at hd
    · obtain rfl := List.mem_singleton.mp hd
      rfl
    · cases hd

/-- Only what belongs to an enum is entered as one of its values. -/
theorem declaresValue_of_mem_declared {d : Declared} {enum : FullName} {name : String}
    (hd : d ∈ file.declared) (hvalue : d.enumValue = some (enum.child name)) :
    file.DeclaresValue enum name := by
  -- Of all that is declared, only the values of an enum are known as values.
  obtain ⟨ds, hds, hsource⟩ := file.exists_declared_eq
  rw [hds] at hd
  rcases List.mem_append.mp hd with hd | hd
  · obtain ⟨p, -, hd⟩ := List.mem_flatMap.mp hd
    obtain ⟨_, -, -, rfl⟩ := mem_packagesFrom.mp hd
    cases hvalue
  rcases hsource d hd with ⟨scope, i, hi, hd⟩ | ⟨s, -, hd⟩
  · cases i with
    | enum e =>
        rcases List.mem_cons.mp hd with rfl | hd
        · cases hvalue
        · obtain ⟨value, hmem, rfl⟩ := List.mem_map.mp hd
          obtain ⟨hname, henum⟩ := List.cons.inj (congrArg FullName.chain (Option.some.inj hvalue))
          exact ⟨scope, e, value, hi, hmem, congrArg FullName.mk henum, hname⟩
    | message m =>
        obtain rfl := List.mem_singleton.mp hd
        cases hvalue
    | field f =>
        rw [enumValue_of_mem_field hd] at hvalue
        cases hvalue
    | oneof o =>
        rcases List.mem_cons.mp hd with rfl | hd
        · cases hvalue
        · obtain ⟨f, -, hd⟩ := List.mem_flatMap.mp hd
          rw [enumValue_of_mem_field hd] at hvalue
          cases hvalue
    | extend e =>
        obtain ⟨_, -, rfl⟩ := List.mem_map.mp hd
        cases hvalue
  · rcases List.mem_cons.mp hd with rfl | hd
    · cases hvalue
    · obtain ⟨_, -, rfl⟩ := List.mem_map.mp hd
      cases hvalue

/-- A word is a value of an enum if the file declares it as one, and under no other condition. -/
theorem isEnumValue_iff {enum : FullName} {name : String} (henum : enum.IsUndotted)
    (hname : Undotted name) :
    (SymbolTable.ofFile file).1.isEnumValue enum name = true ↔ file.DeclaresValue enum name := by
  unfold SymbolTable.isEnumValue
  rw [henum.withoutDot, Text.segments_of_not_mem _ hname, List.map_singleton, String.ofList_toList,
    List.contains_iff_mem]
  -- With no dots in either part, what is looked up is what is entered for such a value.
  show enum.child name ∈ (SymbolTable.ofFile file).1.enumValues ↔ _
  unfold SymbolTable.ofFile
  rw [SymbolTable.mem_enumValues_declareAll]
  constructor
  · rintro (h | ⟨d, hd, hvalue⟩)
    · cases h
    · exact declaresValue_of_mem_declared hd hvalue
  · rintro ⟨scope, e, value, he, hvalue, rfl, rfl⟩
    exact .inr ⟨_, he.mem_declared (List.mem_cons_of_mem _ (List.mem_map_of_mem hvalue)), rfl⟩

end File

/-! ### Declared fields -/

namespace File

variable {file : File} {scope : FullName}

/-- What a file with words for names holds has words for names, and stands in such a scope. -/
theorem Holds.hasWords {i : MessageItem} (h : file.Holds scope i) (hw : file.HasWords) :
    scope.IsUndotted ∧ i.HasWords := by
  induction h with
  | message hm =>
      rw [MessageItem.HasWords]
      exact ⟨hw.scope, hw.messages _ hm⟩
  | enum he =>
      rw [MessageItem.HasWords]
      exact ⟨hw.scope, hw.enums _ he⟩
  | extend he =>
      rw [MessageItem.HasWords]
      exact ⟨hw.scope, hw.extendBlocks _ he⟩
  | @within scope m item _ hi ih =>
      obtain ⟨hs, hm⟩ := ih
      obtain ⟨name, items, options, reserved, extensions, span⟩ := m
      rw [MessageItem.HasWords, Message.HasWords] at hm
      exact ⟨hs.child (undotted_of_isWord hm.1), (MessageItem.haveWords_iff _).mp hm.2 item hi⟩

theorem DeclaresField.hasWords {f : Field} (h : file.DeclaresField scope f) (hw : file.HasWords) :
    scope.IsUndotted ∧ f.HasWords := by
  cases h with
  | member hf =>
      cases hf with
      | field hi =>
          have hitem := hi.hasWords hw
          rwa [MessageItem.HasWords] at hitem
      | oneof hi hf =>
          have hitem := hi.hasWords hw
          rw [MessageItem.HasWords] at hitem
          exact ⟨hitem.1, hitem.2 _ hf⟩
  | extension hi hf =>
      have hitem := hi.hasWords hw
      rw [MessageItem.HasWords] at hitem
      exact ⟨hitem.1, hitem.2.fields _ hf⟩

theorem Holds.everyField {P : Field → Prop} {i : MessageItem} (h : file.Holds scope i)
    (hP : file.EveryField P) : i.EveryField P := by
  induction h with
  | message hm =>
      rw [MessageItem.EveryField]
      exact hP.messages _ hm
  | enum he => trivial
  | extend he =>
      rw [MessageItem.EveryField]
      exact hP.extendBlocks _ he
  | @within scope m item _ hi ih =>
      obtain ⟨name, items, options, reserved, extensions, span⟩ := m
      rw [MessageItem.EveryField, Message.EveryField] at ih
      exact (MessageItem.everyFieldAmong_iff _).mp ih item hi

/-- What every field of a tree has, a declared field has. -/
theorem DeclaresField.of_everyField {P : Field → Prop} {f : Field}
    (h : file.DeclaresField scope f) (hP : file.EveryField P) : P f := by
  cases h with
  | member hf =>
      cases hf with
      | field hi =>
          have hitem := hi.everyField hP
          rwa [MessageItem.EveryField] at hitem
      | oneof hi hf =>
          have hitem := hi.everyField hP
          rw [MessageItem.EveryField] at hitem
          exact hitem _ hf
  | extension hi hf =>
      have hitem := hi.everyField hP
      rw [MessageItem.EveryField] at hitem
      exact hitem _ hf

end File

namespace Context

variable {file : File} {scope : FullName}

/-- The enum that the type of a field is resolved to has names without dots. -/
theorem isUndotted_typeOf {f : Field} (hs : scope.IsUndotted) (hw : file.HasWords)
    (hf : f.HasWords) {n : FullName}
    (h : (typeOf (file.context (SymbolTable.ofFile file).1) scope f).value = .enum n) :
    n.IsUndotted := by
  have hkind := hf.kind
  unfold typeOf at h
  cases hfield : f.kind with
  | map key keySpan value valueSpan span =>
      rw [hfield] at h
      cases h
  | plain type span =>
      rw [hfield] at h hkind
      dsimp only at h
      have hmeans := (file.context (SymbolTable.ofFile file).1).means_fieldType scope type
      rw [h] at hmeans
      cases hmeans with
      | enum hresolve =>
          have hmem := mem_declaredTypes_of_resolve hs hkind hresolve
          exact (hw.haveDeclaredNames _ hmem).undotted

theorem undefaultable?_eq_none {kind : FieldKind} {label : Label} {type : FieldType}
    (hmap : kind.isMap = false) (hlabel : label ≠ .repeated) (htype : type.isPlain = true) :
    undefaultable? kind label type = none := by
  cases kind with
  | map key keySpan value valueSpan span => cases hmap
  | plain use span =>
      cases label with
      | repeated => exact absurd rfl hlabel
      | optional => cases type <;> first | rfl | cases htype
      | required => cases type <;> first | rfl | cases htype

/-- A default of an enum is stored if the file declares it as a value of that enum. -/
theorem settles_checkEnumValue {v : OptionValue} (hv : v.HasWord) {n : FullName}
    (hn : n.IsUndotted) :
    (∃ text, file.Stores (.enum n) v text ∧
        (v.checkEnumValue (SymbolTable.ofFile file).1 n).value = some text) ∨
      (∀ text, ¬file.Stores (.enum n) v text) ∧
        (v.checkEnumValue (SymbolTable.ofFile file).1 n).value = none := by
  cases v with
  | ident negative name span =>
      cases negative with
      | true => exact .inr ⟨nofun, rfl⟩
      | false =>
          have hvalue := file.isEnumValue_iff hn (undotted_of_isWord (hv _ _ _ rfl))
          rw [OptionValue.checkEnumValue]
          by_cases hdeclares : file.DeclaresValue n name.text
          · rw [if_pos (hvalue.mpr hdeclares)]
            obtain ⟨scope, e, value, he, hmem, rfl, hname⟩ := hdeclares
            exact .inl ⟨_, .enum he hmem hname, rfl⟩
          · rw [if_neg fun h => hdeclares (hvalue.mp h)]
            refine .inr ⟨?_, rfl⟩
            intro text h
            cases h with
            | enum he hmem hname => exact hdeclares ⟨_, _, _, he, hmem, rfl, hname⟩
  | int n => exact .inr ⟨nofun, rfl⟩
  | float x span => exact .inr ⟨nofun, rfl⟩
  | string s => exact .inr ⟨nofun, rfl⟩
  | aggregate text span => exact .inr ⟨nofun, rfl⟩

/-- A default that can be checked is stored if the type of its field allows it. -/
theorem settles_defaultValue {f : Field} (h : file.DeclaresField scope f) (hw : file.HasWords)
    {o : OptionSetting} (ho : o.value.HasWord) {label : Label} {type : FieldType}
    (hdialect : file.dialect = .proto2) (hlabel : label ≠ .repeated)
    (hmap : f.kind.isMap = false)
    (htype : (typeOf (file.context (SymbolTable.ofFile file).1) scope f).value = type)
    (hplain : type.isPlain = true) :
    (∃ text, file.Stores type o.value text ∧
        ((file.context (SymbolTable.ofFile file).1).defaultValue f.kind label type o).value =
          some text) ∨
      (∀ text, ¬file.Stores type o.value text) ∧
        ((file.context (SymbolTable.ofFile file).1).defaultValue f.kind label type o).value =
          none := by
  have hnotProto3 : (file.context (SymbolTable.ofFile file).1).dialect ≠ .proto3 := by
    show file.dialect ≠ .proto3
    rw [hdialect]
    exact Dialect.noConfusion
  unfold defaultValue
  rw [if_neg hnotProto3, undefaultable?_eq_none hmap hlabel hplain]
  obtain ⟨hs, hf⟩ := h.hasWords hw
  cases type with
  | scalar s =>
      rcases o.value.settles_checkScalar s with ⟨text, hstores, hvalue⟩ | ⟨hstores, hvalue⟩
      · exact .inl ⟨text, .scalar hstores, hvalue⟩
      · refine .inr ⟨?_, hvalue⟩
        intro text h
        cases h with
        | scalar h => exact hstores text h
  | enum n => exact settles_checkEnumValue ho (isUndotted_typeOf hs hw hf htype)
  | message n => cases hplain
  | unknown n => cases hplain

theorem obeys_storesFitting {f : Field} (h : file.DeclaresField scope f) (hw : file.HasWords)
    (hwords : file.EveryField Field.HasOptionWords) :
    (file.context (SymbolTable.ofFile file).1).Obeys file.StoresFitting scope f := by
  intro o ho d htype hdefault hdialect hlabel hmap type heq hplain
  have htypeOf := Option.some.inj (htype.symm.trans heq)
  have hdecides := decides_defaultValue (file.context (SymbolTable.ofFile file).1) f.kind
    d.label type o
  rw [htypeOf] at hdefault ⊢
  rcases settles_defaultValue h hw (h.of_everyField hwords o ho) hdialect hlabel hmap htypeOf
    hplain with ⟨text, hstores, hvalue⟩ | ⟨hstores, hvalue⟩
  · rcases hdecides with ⟨_, -, hfound⟩ | ⟨hnone, -⟩
    · exact .inl ⟨text, hstores, hdefault.trans hvalue, hfound⟩
    · cases hnone.symm.trans hvalue
  · rcases hdecides with ⟨_, hsome, -⟩ | ⟨-, hfound⟩
    · cases hsome.symm.trans hvalue
    · exact .inr ⟨hstores, hdefault.trans hvalue, hfound⟩

end Context

/-! ### Sources -/

/--
**Defaults are stored exactly if the types of their fields allow them.**  In the descriptor of a
source, at any depth, a field whose type is built in or an enum of the file has the default that is
written for it if that has a form that the type allows, and otherwise none; and then one thing is
reported, and nothing otherwise.
-/
theorem defaults_of_readText {name source : String} {schema : Schema}
    (h : readText name source = .ok schema) :
    ∃ file parsing, parseFile source.toList = .tree file parsing ∧
      (∀ d ∈ parsing, d.category ≠ .semantic) ∧
      ∃ shares others, file.HasShares file.StoresFitting schema.descriptor shares ∧
        (∀ d ∈ others, d.topic ≠ .options) ∧
        schema.report.diagnostics.Perm (parsing ++ (others ++ shares.all)) := by
  obtain ⟨file, parsing, others, hparse, hdesc, hsemantic, hothers, hreport⟩ := shares_of_readText h
  refine ⟨file, parsing, hparse, hsemantic, _, others, ?_, hothers, hreport⟩
  rw [hdesc]
  exact file.hasShares_describe fun scope f hf =>
    Context.obeys_storesFitting hf (hasWords_of_parseFile hparse) (everyField_of_parseFile hparse)

/--
A value of the enum of a field and one of another enum, a number that is too great by one, and
bytes that need an escape.
-/
def defaultsText : String :=
  "enum A \x7b X = 0; \x7d enum B \x7b Y = 0; \x7d message M \x7b
  optional A a = 1 [default = X]; optional A b = 2 [default = Y];
  optional int32 c = 3 [default = 2147483648]; optional int32 d = 4 [default = -2147483648];
  optional bytes e = 5 [default = \"\\x011\"]; \x7d"

-- Every character of the text makes terms one deeper.
set_option maxRecDepth 2000 in
theorem defaults_of_readText_bounds :
    ∃ schema, readText "defaults.proto" defaultsText = .ok schema ∧
      (schema.descriptor.messages.flatMap fun d => d.fields.map FieldDescriptor.defaultValue) =
        [some "X", none, none, some "-2147483648", some "\\0011"] ∧
      schema.report.diagnostics.length = 2 ∧
      ∃ file parsing shares others, parseFile defaultsText.toList = .tree file parsing ∧
        file.HasShares file.StoresFitting schema.descriptor shares ∧
        schema.report.diagnostics.Perm (parsing ++ (others ++ shares.all)) := by
  obtain ⟨schema, heq, htest⟩ := exists_of_any_readChars "defaults.proto" defaultsText rfl
    (by decide +kernel)
    (fun s => (s.descriptor.messages.flatMap fun d => d.fields.map FieldDescriptor.defaultValue) =
        [some "X", none, none, some "-2147483648", some "\\0011"] &&
      s.report.diagnostics.length = 2)
    (by decide +kernel)
  obtain ⟨hdefaults, hlength⟩ := Bool.and_eq_true_iff.mp htest
  obtain ⟨file, parsing, hparse, -, shares, others, hshares, -, hreport⟩ := defaults_of_readText heq
  exact ⟨schema, heq, of_decide_eq_true hdefaults, of_decide_eq_true hlength, file, parsing, shares,
    others, hparse, hshares, hreport⟩

end ProtoSchema
