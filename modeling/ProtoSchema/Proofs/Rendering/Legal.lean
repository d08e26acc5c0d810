/-
Which trees can be written, and when two trees are the same but for places.

A tree can hold more than source text can say: names with blanks in them, lists of
ranges with nothing in them, blocks with an open brace.  Legal trees are made of parts
that can be written.  Two demands are on more than a part by itself.  A word at the start
of a field's type, of a method's type or of an enum value must not be one that the
grammar takes for something else there; a dot in front of a type takes it out of doubt.
And a minus sign goes with a word only where that word stands for a number.

`bare` takes the places out of a tree.  A dialect that was never stated and one that was
differ by a place only.
-/
import ProtoSchema.Grammar.File
import ProtoSchema.Proofs.Grammar.Means
import ProtoSchema.Proofs.Parsing.Braces
import ProtoSchema.Proofs.Rendering.Printer
import ProtoSchema.Proofs.Rendering.Spelling

namespace ProtoSchema

/-! ### Without places -/

def Ident.bare (n : Ident) : Ident := ⟨n.text, default⟩

def DottedName.bare (n : DottedName) : DottedName := ⟨n.first.bare, n.rest.map Ident.bare⟩

/-- A place that may be missing, by whether it is missing. -/
def bareSpan (s : Option Span) : Option Span := s.map fun _ => default

def TypeName.bare (n : TypeName) : TypeName := ⟨bareSpan n.leadingDot, n.name.bare⟩

def IntLiteral.bare (n : IntLiteral) : IntLiteral := { n with span := default }

def StringLiteral.bare (s : StringLiteral) : StringLiteral := ⟨s.bytes, default⟩

def OptionValue.bare : OptionValue → OptionValue
  | ident negative name _ => .ident negative name.bare default
  | int n => .int n.bare
  | float value _ => .float value default
  | string s => .string s.bare
  | aggregate text _ => .aggregate text default

def OptionNamePart.bare : OptionNamePart → OptionNamePart
  | ident name => .ident name.bare
  | extension name _ => .extension name.bare default

def OptionSetting.bare (o : OptionSetting) : OptionSetting :=
  ⟨o.first.bare, o.rest.map OptionNamePart.bare, o.value.bare⟩

def OptionStatement.bare (o : OptionStatement) : OptionStatement := ⟨o.setting.bare, default⟩

def OptionList.bare (l : OptionList) : OptionList := ⟨l.settings.map OptionSetting.bare, default⟩

def TypeUse.bare : TypeUse → TypeUse
  | scalar t => .scalar t
  | named n => .named n.bare

def FieldKind.bare : FieldKind → FieldKind
  | plain type _ => .plain type.bare default
  | map key _ value _ _ => .map key.bare default value.bare default default

/-- A word with a place, by the word. -/
def bareWord {α : Type} (w : Option (α × Span)) : Option (α × Span) :=
  w.map fun w => (w.1, default)

def Field.bare (f : Field) : Field :=
  ⟨bareWord f.label, f.kind.bare, f.name.bare, f.number.bare, f.options.map OptionList.bare, default⟩

def RangeEnd.bare : RangeEnd → RangeEnd
  | .same => .same
  | .to n => .to n.bare
  | .max _ => .max default

def NumberRange.bare (r : NumberRange) : NumberRange := ⟨r.start.bare, r.stop.bare⟩

def ReservedKind.bare : ReservedKind → ReservedKind
  | ranges rs => .ranges (rs.map NumberRange.bare)
  | names ns => .names (ns.map Ident.bare)

def Reserved.bare (r : Reserved) : Reserved := ⟨r.kind.bare, default⟩

def Extensions.bare (e : Extensions) : Extensions :=
  ⟨e.ranges.map NumberRange.bare, e.options.map OptionList.bare, default⟩

def Oneof.bare (o : Oneof) : Oneof :=
  ⟨o.name.bare, o.options.map OptionStatement.bare, o.fields.map Field.bare, default⟩

def Extend.bare (e : Extend) : Extend := ⟨e.extendee.bare, e.fields.map Field.bare, default⟩

def EnumValue.bare (v : EnumValue) : EnumValue :=
  ⟨v.name.bare, v.number.bare, v.options.map OptionList.bare, default⟩

def Enum.bare (e : Enum) : Enum :=
  ⟨e.name.bare, e.options.map OptionStatement.bare, e.values.map EnumValue.bare,
    e.reserved.map Reserved.bare, default⟩

def Method.bare (m : Method) : Method :=
  ⟨m.name.bare, m.input.bare, m.output.bare, m.options.map OptionStatement.bare,
    bareSpan m.clientStreaming, bareSpan m.serverStreaming, default⟩

def Service.bare (s : Service) : Service :=
  ⟨s.name.bare, s.options.map OptionStatement.bare, s.methods.map Method.bare, default⟩

mutual

def Message.bare : Message → Message
  | ⟨name, items, options, reserved, extensions, _⟩ =>
    ⟨name.bare, MessageItem.bareAll items, options.map OptionStatement.bare,
      reserved.map Reserved.bare, extensions.map Extensions.bare, default⟩

def MessageItem.bareAll : List MessageItem → List MessageItem
  | [] => []
  | i :: is => MessageItem.bare i :: MessageItem.bareAll is

def MessageItem.bare : MessageItem → MessageItem
  | .field f => .field f.bare
  | .oneof o => .oneof o.bare
  | .message m => .message (Message.bare m)
  | .enum e => .enum e.bare
  | .extend e => .extend e.bare

end

theorem MessageItem.bareAll_eq (items : List MessageItem) :
    MessageItem.bareAll items = items.map MessageItem.bare := by
  induction items with
  | nil => rfl
  | cons i is ih => rw [MessageItem.bareAll, ih, List.map_cons]

def Package.bare (p : Package) : Package := ⟨p.name.bare, default⟩

def Import.bare (i : Import) : Import := ⟨bareWord i.kind, i.path, default, default⟩

/-- A file without its places. -/
def File.bare (f : File) : File :=
  ⟨f.dialect, none, f.package.map Package.bare, f.imports.map Import.bare,
    f.options.map OptionStatement.bare, f.messages.map Message.bare, f.enums.map Enum.bare,
    f.extendBlocks.map Extend.bare, f.services.map Service.bare⟩

/-! ### Legal names and values -/

def Ident.isLegal (n : Ident) : Bool := isWord n.text

def DottedName.isLegal (n : DottedName) : Bool := n.parts.all Ident.isLegal

def TypeName.isLegal (n : TypeName) : Bool := n.name.isLegal

/-- The word that a type name starts with, if no dot comes before it. -/
def TypeName.opening? (n : TypeName) : Option String :=
  if n.leadingDot.isSome then none else some n.name.first.text

/--
Whether a text can stand in braces: without white space around it and without comments,
made of tokens only, and with a partner for every brace.
-/
def isBlockText (text : String) : Bool :=
  let ls := scanFrom 0 0 text.toList
  Text.trim text.toList = text.toList && commentFreeFrom 0 0 text.toList &&
    ls.all Lexeme.isToken && unmatched [] ls = ⟨[], []⟩

def OptionValue.isLegal : OptionValue → Bool
  | ident negative name _ => name.isLegal && (!negative || Parser.isNegatable name.text)
  | int _ | string _ => true
  | float .. => false
  | aggregate text _ => isBlockText text

def OptionNamePart.isLegal : OptionNamePart → Bool
  | ident name => name.isLegal
  | extension name _ => name.isLegal

def OptionSetting.isLegal (o : OptionSetting) : Bool :=
  o.parts.all OptionNamePart.isLegal && o.value.isLegal

def OptionStatement.isLegal (o : OptionStatement) : Bool := o.setting.isLegal

def OptionList.isLegal (l : OptionList) : Bool :=
  l.settings ≠ [] && l.settings.all OptionSetting.isLegal

/-! ### Legal fields and ranges -/

/-- A type must not start with the word for a scalar type. -/
def TypeUse.isLegal : TypeUse → Bool
  | scalar _ => true
  | named n => n.isLegal && n.opening?.all fun w => (ScalarType.ofText? w).isNone

/-- The word that a kind of field starts with, if that is the name of a type. -/
def FieldKind.opening? : FieldKind → Option String
  | plain (.named n) _ => n.opening?
  | _ => none

/-- A type must not start with the word for a map either. -/
def FieldKind.isLegal (k : FieldKind) : Bool :=
  (match k with
   | plain type _ => type.isLegal
   | map key _ value _ _ => key.isLegal && value.isLegal) &&
  k.opening?.all (· ≠ Keyword.kwMap.text)

/--
Whether a field can stand in a body whose other members start with certain keywords.  Without a
label its type must not start with one of those, nor with a label.
-/
def Field.isLegal (others : List Keyword) (f : Field) : Bool :=
  f.kind.isLegal && f.name.isLegal && f.options.all OptionList.isLegal &&
    (f.label.isSome || f.kind.opening?.all fun w =>
      (Parser.labelOf? w).isNone && others.all (·.text ≠ w))

def ReservedKind.isLegal : ReservedKind → Bool
  | ranges rs => rs ≠ []
  | names ns => ns ≠ []

def Reserved.isLegal (r : Reserved) : Bool := r.kind.isLegal

def Extensions.isLegal (e : Extensions) : Bool :=
  e.ranges ≠ [] && e.options.all OptionList.isLegal

/-! ### Legal declarations -/

def Oneof.isLegal (o : Oneof) : Bool :=
  o.name.isLegal && o.options.all OptionStatement.isLegal && o.fields.all (Field.isLegal [.kwOption])

def Extend.isLegal (e : Extend) : Bool := e.extendee.isLegal && e.fields.all (Field.isLegal [])

def EnumValue.isLegal (v : EnumValue) : Bool :=
  v.name.isLegal && v.options.all OptionList.isLegal &&
    [Keyword.kwOption, Keyword.kwReserved].all (·.text ≠ v.name.text)

def Enum.isLegal (e : Enum) : Bool :=
  e.name.isLegal && e.options.all OptionStatement.isLegal && e.values.all EnumValue.isLegal &&
    e.reserved.all Reserved.isLegal

/-- The type of a method must not start with the word for a stream, unless that word stands there. -/
def TypeName.isLegalMethodType (streaming : Option Span) (n : TypeName) : Bool :=
  n.isLegal && (streaming.isSome || n.opening?.all (· ≠ Keyword.kwStream.text))

def Method.isLegal (m : Method) : Bool :=
  m.name.isLegal && m.input.isLegalMethodType m.clientStreaming &&
    m.output.isLegalMethodType m.serverStreaming && m.options.all OptionStatement.isLegal

def Service.isLegal (s : Service) : Bool :=
  s.name.isLegal && s.options.all OptionStatement.isLegal && s.methods.all Method.isLegal

/-- The words that start the members of a message which are no fields. -/
def messageKeywords : List Keyword :=
  [.kwMessage, .kwEnum, .kwOneof, .kwExtend, .kwOption, .kwReserved, .kwExtensions]

mutual

def Message.isLegal : Message → Bool
  | ⟨name, items, options, reserved, extensions, _⟩ =>
    name.isLegal && MessageItem.areLegal items && options.all OptionStatement.isLegal &&
      reserved.all Reserved.isLegal && extensions.all Extensions.isLegal

def MessageItem.areLegal : List MessageItem → Bool
  | [] => true
  | i :: is => MessageItem.isLegal i && MessageItem.areLegal is

def MessageItem.isLegal : MessageItem → Bool
  | .field f => f.isLegal messageKeywords
  | .oneof o => o.isLegal
  | .message m => Message.isLegal m
  | .enum e => e.isLegal
  | .extend e => e.isLegal

end

theorem MessageItem.areLegal_eq (items : List MessageItem) :
    MessageItem.areLegal items = items.all MessageItem.isLegal := by
  induction items with
  | nil => rfl
  | cons i is ih => rw [MessageItem.areLegal, ih, List.all_cons]

def Package.isLegal (p : Package) : Bool := p.name.isLegal

def Import.isLegal (i : Import) : Bool := isImportPath i.path.toList

/-- Whether a file is made of legal parts. -/
def File.isLegal (f : File) : Bool :=
  f.package.all Package.isLegal && f.imports.all Import.isLegal &&
    f.options.all OptionStatement.isLegal && f.messages.all Message.isLegal &&
    f.enums.all Enum.isLegal && f.extendBlocks.all Extend.isLegal && f.services.all Service.isLegal

end ProtoSchema
