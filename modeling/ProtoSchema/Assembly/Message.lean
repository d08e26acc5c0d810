/-
Assembling enums and messages.

The items of a message are assembled in order, and each contributes to several parts of
the descriptor at once: a map field to the fields and to the nested messages, a oneof
to the oneofs and, with its members, to the fields.  An optional field that keeps track
of its presence gets a oneof of its own; these stand behind all declared ones, so where
one of them will stand is known before the declared ones have been counted off.
-/
import ProtoSchema.Assembly.Field

namespace ProtoSchema

open Checked

namespace Context

/-! ### Enums -/

/-- Reports an enum that has no values, or a first value that the dialect does not allow. -/
def checkFirstValue (ctx : Context) (e : Enum) : Checked Unit :=
  match e.values with
  | [] => report (.emptyEnum e.name.span)
  | first :: _ =>
    reportIf (ctx.dialect = .proto3 && first.number.toInt32?.any (· ≠ 0))
      (.proto3FirstEnumValueNotZero first.number.span)

def enumValue (v : EnumValue) : Checked EnumValueDescriptor := do
  let number ← v.number.checkEnumNumber
  let options ← optionsOf (OptionList.settingsOf v.options)
  pure ⟨v.name.text, number, options⟩

/-- The setting of an option statement. -/
def settings (os : List OptionStatement) : List OptionSetting := os.map OptionStatement.setting

def enum (ctx : Context) (e : Enum) : Checked EnumDescriptor := do
  ctx.checkFirstValue e
  let values ← each enumValue e.values
  let reserved ← Reserved.check NumberRange.checkEnum e.reserved
  let _ ← each (fun (d, v) => do
    match (d : EnumValueDescriptor).number with
    | some n => checkUnreserved reserved.ranges [] n (v : EnumValue).number.span
    | none => pure ()
    checkUnreservedName reserved.names v.name) (values.zip e.values)
  let options ← optionsOf (settings e.options)
  pure {
    name := e.name.text
    values
    options
    reservedRanges := reserved.ranges.map fun r => ⟨r.start, r.stop⟩
    reservedNames := reserved.names.map Ident.text }

/-! ### Parts of messages -/

/-- What items contribute to the descriptor of their message. -/
structure MessageParts where
  /-- The fields, each with its declaration. -/
  fields : List (Field × FieldDescriptor)
  extensions : List FieldDescriptor
  nested : List MessageDescriptor
  enums : List EnumDescriptor
  /-- The declared oneofs. -/
  oneofs : List OneofDescriptor
  /-- The oneofs of optional fields. -/
  presence : List OneofDescriptor

namespace MessageParts

def empty : MessageParts := ⟨[], [], [], [], [], []⟩

def append (a b : MessageParts) : MessageParts :=
  ⟨a.fields ++ b.fields, a.extensions ++ b.extensions, a.nested ++ b.nested, a.enums ++ b.enums,
    a.oneofs ++ b.oneofs, a.presence ++ b.presence⟩

instance : Append MessageParts := ⟨append⟩

end MessageParts

/--
What a field contributes.  If it gets a oneof of its own, that one stands at `index`.
-/
def fieldParts (ctx : Context) (scope : FullName) (index : Nat) (f : Field) :
    Checked MessageParts := do
  let entry ← ctx.mapEntry? scope f
  let (label, tracksPresence) ← f.checkLabel ctx.dialect
  let d ← ctx.field scope f label
  let parts := { MessageParts.empty with nested := entry.toList }
  if tracksPresence then
    pure { parts with
      fields := [(f, { d with oneofIndex := some index, proto3Optional := true })]
      presence := [⟨"_" ++ f.name.text, none⟩] }
  else pure { parts with fields := [(f, d)] }

/-- What a oneof contributes, which stands at `index`. -/
def oneofParts (ctx : Context) (scope : FullName) (index : Nat) (o : Oneof) :
    Checked MessageParts := do
  reportIf o.fields.isEmpty (.emptyOneof o.name.span)
  let options ← optionsOf (settings o.options)
  let fields ← each (fun f : Field => do
    let label ← f.checkOneofLabel
    let d ← ctx.field scope f label
    pure (f, { d with oneofIndex := some index })) o.fields
  pure { MessageParts.empty with fields, oneofs := [⟨o.name.text, options⟩] }

/-- Whether an item is a oneof. -/
def isOneof : MessageItem → Bool
  | .oneof _ => true
  | _ => false

/-- The ranges that a statement leaves to extensions, checked, with its options. -/
def extensionRanges (e : Extensions) :
    Checked (List (CheckedRange × Option (Options NoOption))) := do
  let options ← optionsOf (OptionList.settingsOf e.options)
  let ranges ← each NumberRange.checkMessage e.ranges
  pure (ranges.map (·, options))

/-- A range with the upper bound excluded. -/
def halfOpen (r : CheckedRange) : RangeDescriptor := ⟨r.start, r.stop.map (· + 1)⟩

/-- The descriptor of a message whose items have been assembled. -/
def close (name : Ident) (parts : MessageParts) (options : List OptionStatement)
    (reserved : List Reserved) (extensions : List Extensions) : Checked MessageDescriptor := do
  let reservations ← Reserved.check NumberRange.checkMessage reserved
  let extensionRanges := (← each extensionRanges extensions).flatten
  checkFieldNumbers reservations (extensionRanges.map Prod.fst) []
    (parts.fields.map fun (f, d) => (d.number, f))
  let options ← optionsOf (settings options)
  pure {
    name := name.text
    fields := parts.fields.map Prod.snd
    extensions := parts.extensions
    nested := parts.nested
    enums := parts.enums
    extensionRanges := extensionRanges.map fun (r, o) => ⟨halfOpen r, o⟩
    oneofs := parts.oneofs ++ parts.presence
    options
    reservedRanges := reservations.ranges.map halfOpen
    reservedNames := reservations.names.map Ident.text }

/-! ### Messages -/

mutual

/-- A message declared in a scope. -/
def message (ctx : Context) (scope : FullName) : Message → Checked MessageDescriptor
  | ⟨name, items, options, reserved, extensions, _⟩ => do
    let parts ← messageItems ctx (scope.child name.text) 0 (items.countP isOneof) items
    close name parts options reserved extensions

/--
What the items of a message contribute.  The next declared oneof stands at
`oneofIndex`, and the next oneof of an optional field at `presenceIndex`.
-/
def messageItems (ctx : Context) (scope : FullName) :
    (oneofIndex presenceIndex : Nat) → List MessageItem → Checked MessageParts
  | _, _, [] => pure .empty
  | oneofIndex, presenceIndex, i :: is => do
    let parts ← messageItem ctx scope oneofIndex presenceIndex i
    let more ← messageItems ctx scope (oneofIndex + parts.oneofs.length)
      (presenceIndex + parts.presence.length) is
    pure (parts ++ more)

def messageItem (ctx : Context) (scope : FullName) (oneofIndex presenceIndex : Nat) :
    MessageItem → Checked MessageParts
  | .field f => ctx.fieldParts scope presenceIndex f
  | .oneof o => ctx.oneofParts scope oneofIndex o
  | .message m => do
    let d ← message ctx scope m
    pure { MessageParts.empty with nested := [d] }
  | .enum e => do
    let d ← ctx.enum e
    pure { MessageParts.empty with enums := [d] }
  | .extend e => do
    let ds ← ctx.extensions scope e
    pure { MessageParts.empty with extensions := ds }

end

end Context

end ProtoSchema
