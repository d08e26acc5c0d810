/-
Trees at other places.

A tree says of every node where it stands, and nothing else in it depends on the layout of the
source but the text of blocks in braces.  A relocation moves a tree: it says where each start and
each end goes, and what becomes of the text of a block.  Starts and ends are told apart, because
a token can end where the next one starts, and need not do so after the move.

What is computed from a tree does not look at places.  So a moved tree has the same names,
numbers and texts, and the spans that are put together from it are moved spans.  A relocation
that moves nothing and keeps the values of all options leaves a tree as it is.
-/
import ProtoSchema.Diagnostic
import ProtoSchema.Tree.File

namespace ProtoSchema

/-! ### Places -/

/-- Where things go, and what becomes of the text of a block. -/
structure Relocation where
  start : Nat → Nat
  stop : Nat → Nat
  block : String → String

namespace Relocation

/-- Everything stays where it is. -/
def still : Relocation := ⟨id, id, id⟩

/-- The text of blocks is kept. -/
def KeepsText (m : Relocation) : Prop := ∀ text, m.block text = text

/-- No place changes. -/
structure Stays (m : Relocation) : Prop where
  start : ∀ n, m.start n = n
  stop : ∀ n, m.stop n = n

theorem keepsText_still : still.KeepsText := fun _ => rfl

theorem stays_still : still.Stays := ⟨fun _ => rfl, fun _ => rfl⟩

/-- One relocation after the other. -/
def followedBy (m n : Relocation) : Relocation :=
  ⟨n.start ∘ m.start, n.stop ∘ m.stop, n.block ∘ m.block⟩

end Relocation

def Span.moved (m : Relocation) (s : Span) : Span := ⟨m.start s.start, m.stop s.stop⟩

theorem Span.moved_through (m : Relocation) (a b : Span) :
    (a.through b).moved m = (a.moved m).through (b.moved m) := rfl

theorem Span.moved_moved (m n : Relocation) (s : Span) :
    (s.moved m).moved n = s.moved (m.followedBy n) := rfl

/-- A word that may be missing, with its place. -/
def movedWord {α : Type} (m : Relocation) (w : Option (α × Span)) : Option (α × Span) :=
  w.map fun w => (w.1, w.2.moved m)

theorem Relocation.Stays.span {m : Relocation} (h : m.Stays) (s : Span) : s.moved m = s := by
  rw [Span.moved, h.start, h.stop]

theorem Relocation.Stays.word {m : Relocation} {α : Type} (h : m.Stays)
    (w : Option (α × Span)) : movedWord m w = w := by
  cases w with
  | none => rfl
  | some w => rw [movedWord, Option.map_some, h.span]

/-! ### Diagnostics -/

namespace Diagnostic

/-- A diagnostic about the same thing at another place. -/
def moved (m : Relocation) : Diagnostic → Diagnostic
  | invalidToken c s => invalidToken c (s.moved m)
  | integerOutOfRange s => integerOutOfRange (s.moved m)
  | invalidStringCharacters s => invalidStringCharacters (s.moved m)
  | unterminatedString s => unterminatedString (s.moved m)
  | invalidStringEscape s => invalidStringEscape (s.moved m)
  | invalidUtf8String s => invalidUtf8String (s.moved m)
  | unterminatedBlockComment s => unterminatedBlockComment (s.moved m)
  | noSpaceBetweenIntAndIdent s => noSpaceBetweenIntAndIdent (s.moved m)
  | unexpectedToken e t s => unexpectedToken e t (s.moved m)
  | unexpectedEof e s => unexpectedEof e (s.moved m)
  | invalidImport s => invalidImport (s.moved m)
  | negativeIdent s => negativeIdent (s.moved m)
  | invalidRange s => invalidRange (s.moved m)
  | unterminatedBody kind s => unterminatedBody kind (s.moved m)
  | unknownSyntax value s => unknownSyntax value (s.moved m)
  | syntaxNotFirst s => syntaxNotFirst (s.moved m)
  | duplicateSyntax a b => duplicateSyntax (a.moved m) (b.moved m)
  | duplicatePackage a b => duplicatePackage (a.moved m) (b.moved m)
  | invalidMessageNumber s => invalidMessageNumber (s.moved m)
  | reservedMessageNumber s => reservedMessageNumber (s.moved m)
  | invalidEnumNumber s => invalidEnumNumber (s.moved m)
  | duplicateNumber n a b => duplicateNumber n (a.moved m) (b.moved m)
  | duplicateName name a b => duplicateName name (a.moved m) (b.moved m)
  | reservedFieldNumber n s r => reservedFieldNumber n (s.moved m) (r.moved m)
  | reservedFieldName name s r => reservedFieldName name (s.moved m) (r.moved m)
  | fieldNumberInExtensionRange n s r => fieldNumberInExtensionRange n (s.moved m) (r.moved m)
  | unresolvedType name s => unresolvedType name (s.moved m)
  | invalidMessageType name s => invalidMessageType name (s.moved m)
  | invalidMapFieldKeyType s => invalidMapFieldKeyType (s.moved m)
  | mapFieldWithLabel s => mapFieldWithLabel (s.moved m)
  | oneofFieldWithLabel s => oneofFieldWithLabel (s.moved m)
  | invalidOneofFieldKind s => invalidOneofFieldKind (s.moved m)
  | emptyOneof s => emptyOneof (s.moved m)
  | invalidExtendFieldKind s => invalidExtendFieldKind (s.moved m)
  | requiredExtendField s => requiredExtendField (s.moved m)
  | proto3RequiredField s => proto3RequiredField (s.moved m)
  | proto3DefaultValue s => proto3DefaultValue (s.moved m)
  | invalidDefault reason s => invalidDefault reason (s.moved m)
  | valueInvalidType expected actual s => valueInvalidType expected actual (s.moved m)
  | integerValueOutOfRange expected actual s => integerValueOutOfRange expected actual (s.moved m)
  | duplicateOption name a b => duplicateOption name (a.moved m) (b.moved m)
  | mapEntryOptionSet s => mapEntryOptionSet (s.moved m)
  | proto3FirstEnumValueNotZero s => proto3FirstEnumValueNotZero (s.moved m)
  | emptyEnum s => emptyEnum (s.moved m)

theorem span_moved (m : Relocation) (d : Diagnostic) : (d.moved m).span = d.span.moved m := by
  cases d <;> rfl

theorem moved_moved (m n : Relocation) (d : Diagnostic) :
    (d.moved m).moved n = d.moved (m.followedBy n) := by
  cases d <;> rfl

end Diagnostic

theorem Relocation.Stays.diagnostic {m : Relocation} (h : m.Stays) (d : Diagnostic) :
    d.moved m = d := by
  cases d <;> simp only [Diagnostic.moved, h.span]

/-! ### Names and values -/

def Ident.moved (m : Relocation) (n : Ident) : Ident := ⟨n.text, n.span.moved m⟩

def DottedName.moved (m : Relocation) (n : DottedName) : DottedName :=
  ⟨n.first.moved m, n.rest.map (Ident.moved m)⟩

def TypeName.moved (m : Relocation) (n : TypeName) : TypeName :=
  ⟨n.leadingDot.map (Span.moved m), n.name.moved m⟩

def IntLiteral.moved (m : Relocation) (n : IntLiteral) : IntLiteral :=
  { n with span := n.span.moved m }

def StringLiteral.moved (m : Relocation) (s : StringLiteral) : StringLiteral :=
  ⟨s.bytes, s.span.moved m⟩

def OptionValue.moved (m : Relocation) : OptionValue → OptionValue
  | ident negative name s => .ident negative (name.moved m) (s.moved m)
  | int n => .int (n.moved m)
  | float value s => .float value (s.moved m)
  | string s => .string (s.moved m)
  | aggregate text s => .aggregate (m.block text) (s.moved m)

def OptionNamePart.moved (m : Relocation) : OptionNamePart → OptionNamePart
  | ident name => .ident (name.moved m)
  | extension name s => .extension (name.moved m) (s.moved m)

def OptionSetting.moved (m : Relocation) (o : OptionSetting) : OptionSetting :=
  ⟨o.first.moved m, o.rest.map (OptionNamePart.moved m), o.value.moved m⟩

def OptionStatement.moved (m : Relocation) (o : OptionStatement) : OptionStatement :=
  ⟨o.setting.moved m, o.span.moved m⟩

def OptionList.moved (m : Relocation) (l : OptionList) : OptionList :=
  ⟨l.settings.map (OptionSetting.moved m), l.span.moved m⟩

/-! ### Declarations -/

def TypeUse.moved (m : Relocation) : TypeUse → TypeUse
  | scalar s => .scalar s
  | named n => .named (n.moved m)

def FieldKind.moved (m : Relocation) : FieldKind → FieldKind
  | plain type s => .plain (type.moved m) (s.moved m)
  | map key keySpan value valueSpan s =>
    .map (key.moved m) (keySpan.moved m) (value.moved m) (valueSpan.moved m) (s.moved m)

def Field.moved (m : Relocation) (f : Field) : Field :=
  ⟨movedWord m f.label, f.kind.moved m, f.name.moved m, f.number.moved m,
    f.options.map (OptionList.moved m), f.span.moved m⟩

def RangeEnd.moved (m : Relocation) : RangeEnd → RangeEnd
  | .same => .same
  | .to n => .to (n.moved m)
  | .max s => .max (s.moved m)

def NumberRange.moved (m : Relocation) (r : NumberRange) : NumberRange :=
  ⟨r.start.moved m, r.stop.moved m⟩

def ReservedKind.moved (m : Relocation) : ReservedKind → ReservedKind
  | ranges rs => .ranges (rs.map (NumberRange.moved m))
  | names ns => .names (ns.map (Ident.moved m))

def Reserved.moved (m : Relocation) (r : Reserved) : Reserved := ⟨r.kind.moved m, r.span.moved m⟩

def Extensions.moved (m : Relocation) (e : Extensions) : Extensions :=
  ⟨e.ranges.map (NumberRange.moved m), e.options.map (OptionList.moved m), e.span.moved m⟩

def Oneof.moved (m : Relocation) (o : Oneof) : Oneof :=
  ⟨o.name.moved m, o.options.map (OptionStatement.moved m), o.fields.map (Field.moved m),
    o.span.moved m⟩

def Extend.moved (m : Relocation) (e : Extend) : Extend :=
  ⟨e.extendee.moved m, e.fields.map (Field.moved m), e.span.moved m⟩

def EnumValue.moved (m : Relocation) (v : EnumValue) : EnumValue :=
  ⟨v.name.moved m, v.number.moved m, v.options.map (OptionList.moved m), v.span.moved m⟩

def Enum.moved (m : Relocation) (e : Enum) : Enum :=
  ⟨e.name.moved m, e.options.map (OptionStatement.moved m), e.values.map (EnumValue.moved m),
    e.reserved.map (Reserved.moved m), e.span.moved m⟩

def Method.moved (m : Relocation) (r : Method) : Method :=
  ⟨r.name.moved m, r.input.moved m, r.output.moved m, r.options.map (OptionStatement.moved m),
    r.clientStreaming.map (Span.moved m), r.serverStreaming.map (Span.moved m), r.span.moved m⟩

def Service.moved (m : Relocation) (s : Service) : Service :=
  ⟨s.name.moved m, s.options.map (OptionStatement.moved m), s.methods.map (Method.moved m),
    s.span.moved m⟩

mutual

def Message.moved (m : Relocation) : Message → Message
  | ⟨name, items, options, reserved, extensions, s⟩ =>
    ⟨name.moved m, MessageItem.movedAll m items, options.map (OptionStatement.moved m),
      reserved.map (Reserved.moved m), extensions.map (Extensions.moved m), s.moved m⟩

def MessageItem.movedAll (m : Relocation) : List MessageItem → List MessageItem
  | [] => []
  | i :: is => MessageItem.moved m i :: MessageItem.movedAll m is

def MessageItem.moved (m : Relocation) : MessageItem → MessageItem
  | .field f => .field (f.moved m)
  | .oneof o => .oneof (o.moved m)
  | .message d => .message (Message.moved m d)
  | .enum e => .enum (e.moved m)
  | .extend e => .extend (e.moved m)

end

theorem MessageItem.movedAll_eq (m : Relocation) (items : List MessageItem) :
    MessageItem.movedAll m items = items.map (MessageItem.moved m) := by
  induction items with
  | nil => rfl
  | cons i is ih => rw [MessageItem.movedAll, ih, List.map_cons]

def Package.moved (m : Relocation) (p : Package) : Package := ⟨p.name.moved m, p.span.moved m⟩

def Import.moved (m : Relocation) (i : Import) : Import :=
  ⟨movedWord m i.kind, i.path, i.pathSpan.moved m, i.span.moved m⟩

/-- A file with everything in it at another place. -/
def File.moved (m : Relocation) (f : File) : File :=
  ⟨f.dialect, f.dialectSpan.map (Span.moved m), f.package.map (Package.moved m),
    f.imports.map (Import.moved m), f.options.map (OptionStatement.moved m),
    f.messages.map (Message.moved m), f.enums.map (Enum.moved m),
    f.extendBlocks.map (Extend.moved m), f.services.map (Service.moved m)⟩

/-! ### What does not depend on places, and spans that move along -/

section

variable (m : Relocation)

@[simp] theorem Ident.text_moved (n : Ident) : (n.moved m).text = n.text := rfl

@[simp] theorem Ident.span_moved (n : Ident) : (n.moved m).span = n.span.moved m := rfl

@[simp] theorem DottedName.words_moved (n : DottedName) : (n.moved m).words = n.words := by
  simp [words, parts, DottedName.moved, Function.comp_def]

@[simp] theorem DottedName.span_moved (n : DottedName) : (n.moved m).span = n.span.moved m := by
  simp [span, last, DottedName.moved, Span.moved_through]

@[simp] theorem DottedName.text_moved (n : DottedName) : (n.moved m).text = n.text := by
  rw [text, words_moved, text]

@[simp] theorem TypeName.text_moved (n : TypeName) : (n.moved m).text = n.text := by
  simp [text, TypeName.moved]

@[simp] theorem TypeName.span_moved (n : TypeName) : (n.moved m).span = n.span.moved m := by
  obtain ⟨dot, name⟩ := n
  cases dot with
  | none => exact name.span_moved m
  | some dot =>
      rw [Span.moved, TypeName.span, TypeName.span]
      exact congrArg (fun s => Span.through (dot.moved m) s) (name.span_moved m)

@[simp] theorem IntLiteral.value_moved (n : IntLiteral) : (n.moved m).value = n.value := rfl

@[simp] theorem IntLiteral.toInt64?_moved (n : IntLiteral) :
    (n.moved m).toInt64? = n.toInt64? := rfl

@[simp] theorem IntLiteral.toInt32?_moved (n : IntLiteral) :
    (n.moved m).toInt32? = n.toInt32? := rfl

@[simp] theorem IntLiteral.between?_moved (n : IntLiteral) (min max : BitVec 128) :
    (n.moved m).between? min max = n.between? min max := rfl

@[simp] theorem OptionValue.span_moved (v : OptionValue) : (v.moved m).span = v.span.moved m := by
  cases v <;> rfl

theorem OptionValue.text_moved (hm : m.KeepsText) (v : OptionValue) :
    (v.moved m).text = v.text := by
  cases v with
  | aggregate text s => simp only [OptionValue.moved, OptionValue.text, hm text]
  | _ => rfl

@[simp] theorem OptionNamePart.span_moved (p : OptionNamePart) :
    (p.moved m).span = p.span.moved m := by
  cases p <;> rfl

@[simp] theorem OptionSetting.nameSpan_moved (o : OptionSetting) :
    (o.moved m).nameSpan = o.nameSpan.moved m := by
  simp [nameSpan, OptionSetting.moved, Span.moved_through]

@[simp] theorem OptionSetting.span_moved (o : OptionSetting) :
    (o.moved m).span = o.span.moved m := by
  rw [span, nameSpan_moved, span, Span.moved_through]
  simp [OptionSetting.moved]

@[simp] theorem OptionSetting.simpleName?_moved (o : OptionSetting) :
    (o.moved m).simpleName? = o.simpleName?.map (Ident.moved m) := by
  obtain ⟨first, rest, value⟩ := o
  cases first <;> cases rest <;> rfl

@[simp] theorem OptionList.settingsOf_moved (l : Option OptionList) :
    settingsOf (l.map (OptionList.moved m)) = (settingsOf l).map (OptionSetting.moved m) := by
  cases l <;> rfl

@[simp] theorem FieldKind.isMap_moved (k : FieldKind) : (k.moved m).isMap = k.isMap := by
  cases k <;> rfl

@[simp] theorem FieldKind.span_moved (k : FieldKind) : (k.moved m).span = k.span.moved m := by
  cases k <;> rfl

@[simp] theorem NumberRange.span_moved (r : NumberRange) : (r.moved m).span = r.span.moved m := by
  obtain ⟨start, stop⟩ := r
  cases stop <;> rfl

end

end ProtoSchema
