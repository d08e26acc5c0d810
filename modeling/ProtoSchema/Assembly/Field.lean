/-
Assembling fields.

Fields of messages, members of oneofs and extensions share everything but the rules for
their labels.  A map field is a repeated field of a message that holds one entry.
-/
import ProtoSchema.Assembly.Default
import ProtoSchema.Assembly.Number

namespace ProtoSchema

open Checked

/-! ### Labels -/

/-- The label of a field of a message, and whether the field keeps track of its presence. -/
def Field.checkLabel (f : Field) (dialect : Dialect) : Checked (Label × Bool) :=
  if f.kind.isMap then do
    match f.label with
    | some (_, s) => report (.mapFieldWithLabel s)
    | none => pure ()
    pure (.repeated, false)
  else
    match f.label with
    | none => pure (.optional, false)
    | some (.optional, _) => pure (.optional, dialect = .proto3)
    | some (.required, s) => do
      reportIf (dialect = .proto3) (.proto3RequiredField s)
      pure (.required, false)
    | some (.repeated, _) => pure (.repeated, false)

/-- The label of a member of a oneof, which must not be written. -/
def Field.checkOneofLabel (f : Field) : Checked Label := do
  if f.kind.isMap then report (.invalidOneofFieldKind f.span)
  else
    match f.label with
    | some (_, s) => report (.oneofFieldWithLabel s)
    | none => pure ()
  pure .optional

/-- The label of an extension. -/
def Field.checkExtensionLabel (f : Field) : Checked Label :=
  if f.kind.isMap then do
    report (.invalidExtendFieldKind f.span)
    pure .repeated
  else
    match f.label with
    | none | some (.optional, _) => pure .optional
    | some (.required, s) => do
      report (.requiredExtendField s)
      pure .required
    | some (.repeated, _) => pure .repeated

namespace Context

/-! ### Fields -/

/-- What the options of a field set: its own options, its name in JSON, and its default. -/
structure FieldOptions where
  options : Option (Options FieldOption)
  jsonName : Option String
  default : Option OptionSetting

/-- The options of a field.  Two of them are properties of the field itself. -/
def fieldOptions (list : Option OptionList) : Checked FieldOptions := do
  let r : OptionReading FieldOption ← readOptions (OptionList.settingsOf list)
  let own := r.settings.filter fun s => s.1 ≠ .jsonName
  let jsonName :=
    match r.settings.lookup .jsonName with
    | some (.text s) => some s
    | _ => none
  pure ⟨Options.nonempty? ⟨own, r.custom⟩, jsonName, r.deferred.lookup .defaultValue⟩

/-- A field with a label, declared in a scope. -/
def field (ctx : Context) (scope : FullName) (f : Field) (label : Label) :
    Checked FieldDescriptor := do
  let number ← f.number.checkFieldNumber
  let type ← match f.kind with
    | .plain type _ => ctx.fieldType scope type
    | .map .. => pure (.message (scope.child (mapEntryName f.name.text)))
  let o ← fieldOptions f.options
  let default ← match o.default with
    | some setting => ctx.defaultValue f.kind label type setting
    | none => pure none
  pure {
    name := f.name.text
    number
    label
    type := some type
    extendee := none
    defaultValue := default
    oneofIndex := none
    jsonName := o.jsonName.getD (jsonName f.name.text)
    options := o.options
    proto3Optional := false }

/-- The extensions that a block declares. -/
def extensions (ctx : Context) (scope : FullName) (e : Extend) :
    Checked (List FieldDescriptor) := do
  let extendee ← ctx.messageType scope e.extendee
  each (fun f : Field => do
    let label ← f.checkExtensionLabel
    let d ← ctx.field scope f label
    pure { d with extendee := some extendee }) e.fields

/-! ### Entries of maps -/

/-- A field of the message that holds the entries of a map. -/
def entryField (name : String) (number : Int) (type : Option FieldType) : FieldDescriptor where
  name
  number := some number
  label := .optional
  type
  extendee := none
  defaultValue := none
  oneofIndex := none
  jsonName := name
  options := none
  proto3Optional := false

/-- The type of the keys of a map: an integer, bool or string type. -/
def keyType (key : TypeUse) (span : Span) : Checked (Option FieldType) :=
  match key with
  | .scalar s =>
    if s.isMapKey then pure (some (.scalar s))
    else do
      report (.invalidMapFieldKeyType span)
      pure none
  | .named _ => do
    report (.invalidMapFieldKeyType span)
    pure none

/-- The message that holds the entries of a map field, if the field is one. -/
def mapEntry? (ctx : Context) (scope : FullName) (f : Field) :
    Checked (Option MessageDescriptor) :=
  match f.kind with
  | .plain .. => pure none
  | .map key keySpan value _ _ => do
    let k ← keyType key keySpan
    let v ← ctx.fieldType scope value
    pure (some {
      name := mapEntryName f.name.text
      fields := [entryField "key" 1 k, entryField "value" 2 (some v)]
      extensions := []
      nested := []
      enums := []
      extensionRanges := []
      oneofs := []
      options := some ⟨[(.mapEntry, .flag true)], []⟩
      reservedRanges := []
      reservedNames := [] })

end Context

end ProtoSchema
