/-
Declarations in the grammar.

A keyword means something only where a production asks for it.  So a word at the start
of a member decides what the member is, and the same word in the place of a name is a
name.  The members of a body are parsed into one list, in the order of the source, and
then gathered by kind.
-/
import ProtoSchema.Grammar.Option
import ProtoSchema.Tree.Declaration

namespace ProtoSchema

namespace Parser

/-! ### Fields -/

/-- The label that a word is, if it is one. -/
def labelOf? (word : String) : Option Label :=
  match Keyword.ofText? word with
  | some .kwOptional => some .optional
  | some .kwRequired => some .required
  | some .kwRepeated => some .repeated
  | _ => none

/-- A label, if one comes next. -/
def label? : Parser (Option (Label × Span)) :=
  accept? fun
    | .ident word, s => (labelOf? word).map (·, s)
    | _, _ => none

/-- A type with its place. -/
def typeUse (stop : Terminator) : Parser (TypeUse × Span) := do
  match ← accept? (fun
      | .ident word, s => (ScalarType.ofText? word).map (·, s)
      | _, _ => none) with
  | some (type, s) => pure (.scalar type, s)
  | none => do
    let name ← typeName stop
    pure (.named name, name.span)

/-- The type of a field: a map, if the word `map` comes next, and one type otherwise. -/
def fieldKind : Parser FieldKind := do
  match ← acceptKeyword? .kwMap with
  | some start => do
    let _ ← expectMark .leftAngle
    let (key, keySpan) ← typeUse (.mark .comma)
    let _ ← expectMark .comma
    let (value, valueSpan) ← typeUse (.mark .rightAngle)
    let stop ← expectMark .rightAngle
    pure (.map key keySpan value valueSpan (start.through stop))
  | none => do
    let (type, s) ← typeUse .word
    pure (.plain type s)

/-- A field. -/
def field : Parser Field := do
  let label ← label?
  let kind ← fieldKind
  let name ← ident
  let _ ← expectMark .equals
  let number ← integer
  let options ← optionList?
  let stop ← expectMark .semicolon
  let start := match label with
    | some (_, s) => s
    | none => kind.span
  pure ⟨label, kind, name, number, options, start.through stop⟩

/-! ### Ranges and reservations -/

/-- A number, or a range of numbers. -/
def numberRange : Parser NumberRange := do
  let start ← integer
  match ← acceptKeyword? .kwTo with
  | none => pure ⟨start, .same⟩
  | some _ => do
    match ← acceptKeyword? .kwMax with
    | some s => pure ⟨start, .max s⟩
    | none => do
      match ← peek with
      | some (.int _) | some (.mark .minus) => do
        let stop ← integer
        pure ⟨start, .to stop⟩
      | _ => unexpected .rangeEnd

/-- One item or more, separated by commas. -/
def separated {α : Type} (item : Parser α) : Parser (List α) := do
  let first ← item
  let rest ← many do
    match ← acceptMark? .comma with
    | some _ => do
      let next ← item
      pure (.yield next)
    | none => pure .stop
  pure (first :: rest)

/-- A reserved name, as a word or as a string. -/
def reservedName : Parser Ident := do
  match ← peek with
  | some (.ident _) => ident
  | _ => textLiteral

/-- A reservation of numbers or of names. -/
def reservedStatement : Parser Reserved := do
  let start ← expectKeyword .kwReserved
  let kind ← do
    match ← peek with
    | some (.int _) | some (.mark .minus) => do
      let ranges ← separated numberRange
      pure (ReservedKind.ranges ranges)
    | some (.string _) | some (.ident _) => do
      let names ← separated reservedName
      pure (ReservedKind.names names)
    | _ => unexpected .reservation
  let stop ← expectMark .semicolon
  pure ⟨kind, start.through stop⟩

/-- Ranges of numbers for extensions. -/
def extensionsStatement : Parser Extensions := do
  let start ← expectKeyword .kwExtensions
  let ranges ← separated numberRange
  let options ← optionList?
  let stop ← expectMark .semicolon
  pure ⟨ranges, options, start.through stop⟩

/-! ### Oneofs and extensions -/

/-- A member of a oneof. -/
inductive OneofMember where
  | option (o : OptionStatement)
  | field (f : Field)
deriving DecidableEq, Repr

namespace OneofMember

def option? : OneofMember → Option OptionStatement
  | option o => some o
  | _ => none

def field? : OneofMember → Option Field
  | field f => some f
  | _ => none

end OneofMember

def oneofMember : Parser OneofMember := do
  match ← peekKeyword with
  | some .kwOption => .option <$> optionStatement
  | _ => do
    match ← peek with
    | some (.ident _) | some (.mark .dot) => .field <$> field
    | _ => unexpected (.member .oneof)

def oneof : Parser Oneof := do
  let start ← expectKeyword .kwOneof
  let name ← ident
  let (members, stop) ← body .oneof oneofMember
  pure ⟨name, members.filterMap OneofMember.option?, members.filterMap OneofMember.field?,
    start.through stop⟩

def extendMember : Parser Field := do
  match ← peek with
  | some (.ident _) | some (.mark .dot) => field
  | _ => unexpected (.member .extend)

def extend : Parser Extend := do
  let start ← expectKeyword .kwExtend
  let extendee ← typeName (.mark .leftBrace)
  let (fields, stop) ← body .extend extendMember
  pure ⟨extendee, fields, start.through stop⟩

/-! ### Enums -/

def enumValue : Parser EnumValue := do
  let name ← ident
  let _ ← expectMark .equals
  let number ← integer
  let options ← optionList?
  let stop ← expectMark .semicolon
  pure ⟨name, number, options, name.span.through stop⟩

/-- A member of an enum. -/
inductive EnumMember where
  | option (o : OptionStatement)
  | reserved (r : Reserved)
  | value (v : EnumValue)
deriving DecidableEq, Repr

namespace EnumMember

def option? : EnumMember → Option OptionStatement
  | option o => some o
  | _ => none

def reserved? : EnumMember → Option Reserved
  | reserved r => some r
  | _ => none

def value? : EnumMember → Option EnumValue
  | value v => some v
  | _ => none

end EnumMember

def enumMember : Parser EnumMember := do
  match ← peekKeyword with
  | some .kwOption => .option <$> optionStatement
  | some .kwReserved => .reserved <$> reservedStatement
  | _ => do
    match ← peek with
    | some (.ident _) => .value <$> enumValue
    | _ => unexpected (.member .enum)

def enum : Parser Enum := do
  let start ← expectKeyword .kwEnum
  let name ← ident
  let (members, stop) ← body .enum enumMember
  pure ⟨name, members.filterMap EnumMember.option?, members.filterMap EnumMember.value?,
    members.filterMap EnumMember.reserved?, start.through stop⟩

/-! ### Services -/

def methodMember : Parser OptionStatement := do
  match ← peekKeyword with
  | some .kwOption => optionStatement
  | _ => unexpected (.member .method)

/-- The input or the output of a method, and the word `stream` before it. -/
def methodType : Parser (Option Span × TypeName) := do
  let _ ← expectMark .leftParen
  let streaming ← acceptKeyword? .kwStream
  let type ← typeName (.mark .rightParen)
  let _ ← expectMark .rightParen
  pure (streaming, type)

def method : Parser Method := do
  let start ← expectKeyword .kwRpc
  let name ← ident
  let (clientStreaming, input) ← methodType
  let _ ← expectKeyword .kwReturns
  let (serverStreaming, output) ← methodType
  let (options, stop) ← do
    match ← peek with
    | some (.mark .semicolon) => do
      let s ← expectMark .semicolon
      pure ([], s)
    | some (.mark .leftBrace) => body .method methodMember
    | _ => unexpected .methodEnd
  pure ⟨name, input, output, options, clientStreaming, serverStreaming, start.through stop⟩

/-- A member of a service. -/
inductive ServiceMember where
  | option (o : OptionStatement)
  | method (m : Method)
deriving DecidableEq, Repr

namespace ServiceMember

def option? : ServiceMember → Option OptionStatement
  | option o => some o
  | _ => none

def method? : ServiceMember → Option Method
  | method m => some m
  | _ => none

end ServiceMember

def serviceMember : Parser ServiceMember := do
  match ← peekKeyword with
  | some .kwOption => .option <$> optionStatement
  | some .kwRpc => .method <$> method
  | _ => unexpected (.member .service)

def service : Parser Service := do
  let start ← expectKeyword .kwService
  let name ← ident
  let (members, stop) ← body .service serviceMember
  pure ⟨name, members.filterMap ServiceMember.option?, members.filterMap ServiceMember.method?,
    start.through stop⟩

/-! ### Messages -/

/-- A member of a message. -/
inductive MessageMember where
  | item (i : MessageItem)
  | option (o : OptionStatement)
  | reserved (r : Reserved)
  | extensions (e : Extensions)

namespace MessageMember

def item? : MessageMember → Option MessageItem
  | item i => some i
  | _ => none

def option? : MessageMember → Option OptionStatement
  | option o => some o
  | _ => none

def reserved? : MessageMember → Option Reserved
  | reserved r => some r
  | _ => none

def extensions? : MessageMember → Option Extensions
  | extensions e => some e
  | _ => none

end MessageMember

/-- A member of a message, given a parser for the messages within it. -/
def messageMember (nested : Parser Message) : Parser MessageMember := do
  match ← peekKeyword with
  | some .kwMessage => (.item <| .message ·) <$> nested
  | some .kwEnum => (.item <| .enum ·) <$> enum
  | some .kwOneof => (.item <| .oneof ·) <$> oneof
  | some .kwExtend => (.item <| .extend ·) <$> extend
  | some .kwOption => .option <$> optionStatement
  | some .kwReserved => .reserved <$> reservedStatement
  | some .kwExtensions => .extensions <$> extensionsStatement
  | _ => do
    match ← peek with
    | some (.ident _) | some (.mark .dot) => (.item <| .field ·) <$> field
    | _ => unexpected (.member .message)

/-- A message in which messages are nested less deep than the budget is long. -/
def messageWithin : (budget : List Lexeme) → Parser Message
  | [] => halt .exhausted
  | _ :: budget => do
    let start ← expectKeyword .kwMessage
    let name ← ident
    let (members, stop) ← body .message (messageMember (messageWithin budget))
    pure ⟨name, members.filterMap MessageMember.item?, members.filterMap MessageMember.option?,
      members.filterMap MessageMember.reserved?, members.filterMap MessageMember.extensions?,
      start.through stop⟩

/-- A message.  Messages within it cannot be nested deeper than there are lexemes. -/
def message : Parser Message := fun env r => messageWithin r.lexemes env r

end Parser

end ProtoSchema
