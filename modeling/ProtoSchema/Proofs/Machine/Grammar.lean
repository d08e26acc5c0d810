/-
The grammar, read by a machine.

Every production looks at the next token, and takes it where it is what the production needs; so
each takes its tokens at places of its own.  A sign, a label or a mark that may be missing is
taken behind the look that found it.  The trees are those of the parser.

The text of a block is a slice of the source, from behind the brace that opens it to the brace
that closes it.  A slice must not end before it starts, and must not split a character.
-/
import ProtoSchema.Proofs.Machine.Steps

namespace ProtoSchema

/-- Whether one character ends and the next one starts at an offset of a text. -/
def Text.isBoundary : (offset : Nat) → List Char → Bool
  | 0, _ => true
  | _ + 1, [] => false
  | n + 1, c :: cs => c.utf8Size ≤ n + 1 && isBoundary (n + 1 - c.utf8Size) cs

namespace Machine

/-! ### Names -/

def ident : Machine Ident := do
  match ← peek with
  | some (.ident text, s) => do
    let _ ← bump
    pure ⟨text, s⟩
  | _ => unexpected .identifier

def nameTurn (stop : Terminator) : Machine (Parser.Turn Ident) := do
  match ← peek with
  | some (.mark .dot, _) => do
    let _ ← bump
    let word ← ident
    pure (.yield word)
  | some (t, _) => if stop.admits t then pure .stop else unexpected (.nameEnd stop)
  | none => unexpected (.nameEnd stop)

def dottedName (stop : Terminator) : Machine DottedName := do
  let first ← ident
  let rest ← many (nameTurn stop)
  pure ⟨first, rest⟩

def typeName (stop : Terminator) : Machine TypeName := do
  match ← peek with
  | some (.mark .dot, s) => do
    let _ ← bump
    let name ← dottedName stop
    pure ⟨some s, name⟩
  | some (.ident _, _) => do
    let name ← dottedName stop
    pure ⟨none, name⟩
  | _ => unexpected .typeName

/-! ### Literals -/

def minus? : Machine (Option Span) := do
  match ← peek with
  | some (.mark .minus, s) => do
    let _ ← bump
    pure (some s)
  | _ => pure none

def integer : Machine IntLiteral := do
  let minus ← minus?
  match ← peek with
  | some (.int n, s) => do
    let _ ← bump
    match minus with
    | some m => pure ⟨true, n, m.through s⟩
    | none => pure ⟨false, n, s⟩
  | _ => unexpected .integer

def quoted : Machine StringLiteral := do
  match ← peek with
  | some (.string bytes, s) => do
    let _ ← bump
    pure ⟨bytes, s⟩
  | _ => unexpected .string

def stringTurn : Machine (Parser.Turn StringLiteral) := do
  match ← peek with
  | some (.string bytes, s) => do
    let _ ← bump
    pure (.yield ⟨bytes, s⟩)
  | _ => pure .stop

def stringLiteral : Machine StringLiteral := do
  let first ← quoted
  let rest ← many stringTurn
  pure ⟨first.bytes ++ rest.flatMap StringLiteral.bytes,
    first.span.through (rest.getLastD first).span⟩

def textLiteral : Machine Ident := do
  let s ← stringLiteral
  match Utf8.decode? s.bytes with
  | some text => pure ⟨String.ofList text, s.span⟩
  | none => do
    addError (.invalidUtf8String s.span)
    pure ⟨String.ofList (Utf8.decodeLossy s.bytes), s.span⟩

/-! ### Options -/

/-- Whether a token can stand behind a sign. -/
def isSignable : Token → Bool
  | .int _ | .float _ | .ident _ => true
  | _ => false

/-- Takes a token that can stand behind a sign. -/
def signable : Machine (Token × Span) := do
  match ← peek with
  | some (t, _) => if isSignable t then bump else unexpected .number
  | none => unexpected .number

/-- A number or a word, behind a minus sign that stood at `minus`, or without one. -/
def signedValue (minus : Option Span) : Machine OptionValue := do
  let negative := minus.isSome
  let (t, s) ← signable
  let full := (minus.getD s).through s
  match t with
  | .int n => pure (.int ⟨negative, n, full⟩)
  | .float x => pure (.float (if negative then x.neg else x) full)
  | .ident word => do
    if negative && !Parser.isNegatable word then addError (.negativeIdent full)
    pure (.ident negative ⟨word, s⟩ full)
  | _ => fault .unreachable

/-- A turn of the loop over the tokens of a block, which stops before the brace that closes it. -/
def blockTurn (depth : Nat) : Machine (Option Nat) := do
  match ← peek with
  | some (.mark .leftBrace, _) => do
    let _ ← bump
    pure (some (depth + 1))
  | some (.mark .rightBrace, _) => do
    let depth ← decrement depth
    if depth = 0 then pure none
    else do
      let _ ← bump
      pure (some depth)
  | some _ => do
    let _ ← bump
    pure (some depth)
  | none => unexpected (.mark .rightBrace)

/-- A slice of the source. -/
def slice (start stop : Nat) : Machine (List Char) := fun source s =>
  if start ≤ stop ∧ Text.isBoundary start source ∧ Text.isBoundary stop source then
    .done (Text.slice source ⟨start, stop⟩) s
  else .fault .badSlice

def aggregate : Machine OptionValue := do
  let opening ← expectMark .leftBrace
  let _ ← iterate blockTurn 1
  let (_, closing) ← bump
  let text ← slice opening.stop closing.start
  pure (.aggregate (String.ofList (Text.trim text)) (opening.through closing))

def optionValue : Machine OptionValue := do
  match ← peek with
  | some (.ident text, s) => do
    let _ ← bump
    pure (.ident false ⟨text, s⟩ s)
  | some (.mark .plus, _) => do
    let _ ← bump
    signedValue none
  | some (.mark .minus, s) => do
    let _ ← bump
    signedValue (some s)
  | some (.int _, _) | some (.float _, _) => signedValue none
  | some (.string _, _) => do
    let s ← stringLiteral
    pure (.string s)
  | some (.mark .leftBrace, _) => aggregate
  | _ => unexpected .constant

def optionNamePart : Machine OptionNamePart := do
  match ← peek with
  | some (.mark .leftParen, opening) => do
    let _ ← bump
    let name ← typeName (.mark .rightParen)
    let closing ← expectMark .rightParen
    pure (.extension name (opening.through closing))
  | some (.ident _, _) => .ident <$> ident
  | _ => unexpected .optionNamePart

def optionNameTurn : Machine (Parser.Turn OptionNamePart) := do
  match ← peek with
  | some (.mark .dot, _) => do
    let _ ← bump
    let part ← optionNamePart
    pure (.yield part)
  | some (.mark .equals, _) => do
    let _ ← bump
    pure .stop
  | _ => unexpected .optionNameEnd

def optionSetting : Machine OptionSetting := do
  let first ← optionNamePart
  let rest ← many optionNameTurn
  let value ← optionValue
  pure ⟨first, rest, value⟩

def optionStatement : Machine OptionStatement := do
  let start ← expectKeyword .kwOption
  let setting ← optionSetting
  let stop ← expectMark .semicolon
  pure ⟨setting, start.through stop⟩

/-- A turn of the loop over options in brackets, which stops before the closing bracket. -/
def optionListTurn : Machine (Parser.Turn OptionSetting) := do
  match ← peek with
  | some (.mark .comma, _) => do
    let _ ← bump
    let setting ← optionSetting
    pure (.yield setting)
  | some (.mark .rightBracket, _) => pure .stop
  | _ => unexpected .optionListEnd

def optionList : Machine OptionList := do
  let opening ← expectMark .leftBracket
  let first ← optionSetting
  let rest ← many optionListTurn
  let (_, closing) ← bump
  pure ⟨first :: rest, opening.through closing⟩

def optionList? : Machine (Option OptionList) := do
  match ← peek with
  | some (.mark .leftBracket, _) => some <$> optionList
  | _ => pure none

/-! ### Fields -/

def label? : Machine (Option (Label × Span)) := do
  match ← peekKeyword with
  | some .kwOptional => do
    let (_, s) ← bump
    pure (some (.optional, s))
  | some .kwRequired => do
    let (_, s) ← bump
    pure (some (.required, s))
  | some .kwRepeated => do
    let (_, s) ← bump
    pure (some (.repeated, s))
  | _ => pure none

def scalar? : Machine (Option (ScalarType × Span)) := do
  match ← peek with
  | some (.ident word, s) =>
    match ScalarType.ofText? word with
    | some type => do
      let _ ← bump
      pure (some (type, s))
    | none => pure none
  | _ => pure none

def typeUse (stop : Terminator) : Machine (TypeUse × Span) := do
  match ← scalar? with
  | some (type, s) => pure (.scalar type, s)
  | none => do
    let name ← typeName stop
    pure (.named name, name.span)

def fieldKind : Machine FieldKind := do
  match ← peekKeyword with
  | some .kwMap => do
    let (_, start) ← bump
    let _ ← expectMark .leftAngle
    let (key, keySpan) ← typeUse (.mark .comma)
    let _ ← expectMark .comma
    let (value, valueSpan) ← typeUse (.mark .rightAngle)
    let stop ← expectMark .rightAngle
    pure (.map key keySpan value valueSpan (start.through stop))
  | _ => do
    let (type, s) ← typeUse .word
    pure (.plain type s)

def field : Machine Field := do
  let label ← label?
  let kind ← fieldKind
  let name ← ident
  let _ ← expectMark .equals
  let number ← integer
  let options ← optionList?
  let stop ← expectMark .semicolon
  let start := match label with
    | some (_, s) => s
    | none => kind.span
  pure ⟨label, kind, name, number, options, start.through stop⟩

/-! ### Ranges and reservations -/

def numberRange : Machine NumberRange := do
  let start ← integer
  match ← bumpIfKeyword .kwTo with
  | none => pure ⟨start, .same⟩
  | some _ => do
    match ← bumpIfKeyword .kwMax with
    | some s => pure ⟨start, .max s⟩
    | none => do
      match ← peek with
      | some (.int _, _) | some (.mark .minus, _) => do
        let stop ← integer
        pure ⟨start, .to stop⟩
      | _ => unexpected .rangeEnd

def separatedTurn {α : Type} (item : Machine α) : Machine (Parser.Turn α) := do
  if ← bumpIfMark .comma then do
    let next ← item
    pure (.yield next)
  else pure .stop

def separated {α : Type} (item : Machine α) : Machine (List α) := do
  let first ← item
  let rest ← many (separatedTurn item)
  pure (first :: rest)

def reservedName : Machine Ident := do
  match ← peek with
  | some (.ident _, _) => ident
  | _ => textLiteral

def reservedKind : Machine ReservedKind := do
  match ← peek with
  | some (.int _, _) | some (.mark .minus, _) => .ranges <$> separated numberRange
  | some (.string _, _) | some (.ident _, _) => .names <$> separated reservedName
  | _ => unexpected .reservation

def reservedStatement : Machine Reserved := do
  let start ← expectKeyword .kwReserved
  let kind ← reservedKind
  let stop ← expectMark .semicolon
  pure ⟨kind, start.through stop⟩

def extensionsStatement : Machine Extensions := do
  let start ← expectKeyword .kwExtensions
  let ranges ← separated numberRange
  let options ← optionList?
  let stop ← expectMark .semicolon
  pure ⟨ranges, options, start.through stop⟩

/-! ### Oneofs and extensions -/

def oneofMember : Machine Parser.OneofMember := do
  match ← peekKeyword with
  | some .kwOption => .option <$> optionStatement
  | _ => do
    match ← peek with
    | some (.ident _, _) | some (.mark .dot, _) => .field <$> field
    | _ => unexpected (.member .oneof)

def oneof : Machine Oneof := do
  let start ← expectKeyword .kwOneof
  let name ← ident
  let (members, stop) ← body .oneof oneofMember
  pure ⟨name, members.filterMap Parser.OneofMember.option?,
    members.filterMap Parser.OneofMember.field?, start.through stop⟩

def extendMember : Machine Field := do
  match ← peek with
  | some (.ident _, _) | some (.mark .dot, _) => field
  | _ => unexpected (.member .extend)

def extend : Machine Extend := do
  let start ← expectKeyword .kwExtend
  let extendee ← typeName (.mark .leftBrace)
  let (fields, stop) ← body .extend extendMember
  pure ⟨extendee, fields, start.through stop⟩

/-! ### Enums -/

def enumValue : Machine EnumValue := do
  let name ← ident
  let _ ← expectMark .equals
  let number ← integer
  let options ← optionList?
  let stop ← expectMark .semicolon
  pure ⟨name, number, options, name.span.through stop⟩

def enumMember : Machine Parser.EnumMember := do
  match ← peekKeyword with
  | some .kwOption => .option <$> optionStatement
  | some .kwReserved => .reserved <$> reservedStatement
  | _ => do
    match ← peek with
    | some (.ident _, _) => .value <$> enumValue
    | _ => unexpected (.member .enum)

def enum : Machine Enum := do
  let start ← expectKeyword .kwEnum
  let name ← ident
  let (members, stop) ← body .enum enumMember
  pure ⟨name, members.filterMap Parser.EnumMember.option?,
    members.filterMap Parser.EnumMember.value?, members.filterMap Parser.EnumMember.reserved?,
    start.through stop⟩

/-! ### Services -/

def methodMember : Machine OptionStatement := do
  match ← peekKeyword with
  | some .kwOption => optionStatement
  | _ => unexpected (.member .method)

def methodType : Machine (Option Span × TypeName) := do
  let _ ← expectMark .leftParen
  let streaming ← bumpIfKeyword .kwStream
  let type ← typeName (.mark .rightParen)
  let _ ← expectMark .rightParen
  pure (streaming, type)

def methodEnd : Machine (List OptionStatement × Span) := do
  match ← peek with
  | some (.mark .semicolon, s) => do
    let _ ← bump
    pure ([], s)
  | some (.mark .leftBrace, _) => body .method methodMember
  | _ => unexpected .methodEnd

def method : Machine Method := do
  let start ← expectKeyword .kwRpc
  let name ← ident
  let (clientStreaming, input) ← methodType
  let _ ← expectKeyword .kwReturns
  let (serverStreaming, output) ← methodType
  let (options, stop) ← methodEnd
  pure ⟨name, input, output, options, clientStreaming, serverStreaming, start.through stop⟩

def serviceMember : Machine Parser.ServiceMember := do
  match ← peekKeyword with
  | some .kwOption => .option <$> optionStatement
  | some .kwRpc => .method <$> method
  | _ => unexpected (.member .service)

def service : Machine Service := do
  let start ← expectKeyword .kwService
  let name ← ident
  let (members, stop) ← body .service serviceMember
  pure ⟨name, members.filterMap Parser.ServiceMember.option?,
    members.filterMap Parser.ServiceMember.method?, start.through stop⟩

/-! ### Messages -/

def messageMember (nested : Machine Message) : Machine Parser.MessageMember := do
  match ← peekKeyword with
  | some .kwMessage => (.item <| .message ·) <$> nested
  | some .kwEnum => (.item <| .enum ·) <$> enum
  | some .kwOneof => (.item <| .oneof ·) <$> oneof
  | some .kwExtend => (.item <| .extend ·) <$> extend
  | some .kwOption => .option <$> optionStatement
  | some .kwReserved => .reserved <$> reservedStatement
  | some .kwExtensions => .extensions <$> extensionsStatement
  | _ => do
    match ← peek with
    | some (.ident _, _) | some (.mark .dot, _) => (.item <| .field ·) <$> field
    | _ => unexpected (.member .message)

/-- A message in which messages are nested less deep than the budget is long. -/
def messageWithin : (budget : List Lexeme) → Machine Message
  | [] => fault .endless
  | _ :: budget => do
    let start ← expectKeyword .kwMessage
    let name ← ident
    let (members, stop) ← body .message (messageMember (messageWithin budget))
    pure ⟨name, members.filterMap Parser.MessageMember.item?,
      members.filterMap Parser.MessageMember.option?,
      members.filterMap Parser.MessageMember.reserved?,
      members.filterMap Parser.MessageMember.extensions?, start.through stop⟩

def message : Machine Message := fun source s => messageWithin s.remainder.lexemes source s

/-! ### Files -/

def dialectStatement : Machine Statement := do
  let start ← expectKeyword .kwSyntax
  let _ ← expectMark .equals
  let value ← stringLiteral
  let choice := Dialect.ofBytes? value.bytes
  if choice.isNone then
    addError (.unknownSyntax (String.ofList (Utf8.decodeLossy value.bytes)) value.span)
  let stop ← expectMark .semicolon
  pure (.dialect choice (start.through stop))

def packageStatement : Machine Package := do
  let start ← expectKeyword .kwPackage
  let name ← dottedName (.mark .semicolon)
  let stop ← expectMark .semicolon
  pure ⟨name, start.through stop⟩

def importKind? : Machine (Option (ImportKind × Span)) := do
  match ← peekKeyword with
  | some .kwWeak => do
    let (_, s) ← bump
    pure (some (.weakImport, s))
  | some .kwPublic => do
    let (_, s) ← bump
    pure (some (.publicImport, s))
  | _ => do
    match ← peek with
    | some (.string _, _) => pure none
    | _ => unexpected .importTarget

def importStatement : Machine Import := do
  let start ← expectKeyword .kwImport
  let kind ← importKind?
  let path ← textLiteral
  if !isImportPath path.text.toList then addError (.invalidImport path.span)
  let stop ← expectMark .semicolon
  pure ⟨kind, path.text, path.span, start.through stop⟩

def statement : Machine Statement := do
  match ← peekKeyword with
  | some .kwSyntax => dialectStatement
  | some .kwPackage => .package <$> packageStatement
  | some .kwImport => .dependency <$> importStatement
  | some .kwOption => .option <$> optionStatement
  | some .kwMessage => .message <$> message
  | some .kwEnum => .enum <$> enum
  | some .kwExtend => .extend <$> extend
  | some .kwService => .service <$> service
  | _ => unexpected .statement

/--
Goes on behind a statement that began with a token, if it parsed, and behind what there is of it
otherwise.  A brace that closes nothing is still in the buffer then, and is taken alone.
-/
def finish (draft : Parser.Draft) (t : Token) : Option Statement → Machine (Option Parser.Draft)
  | some s => do
    let (file, ds) := draft.file.place draft.first s
    ds.forM addError
    pure (some ⟨file, false⟩)
  | none => do
    if t = .mark .rightBrace then
      let _ ← bump
    else recover
    pure (some { draft with first := false })

/-- One more statement, or nothing at the end of the source. -/
def nextStatement (draft : Parser.Draft) : Machine (Option Parser.Draft) := do
  match ← peek with
  | some (.mark .semicolon, _) => do
    let _ ← bump
    pure (some draft)
  | some (t, _) => do
    let s ← attempt statement
    finish draft t s
  | none => pure none

def file : Machine File := do
  let draft ← iterate nextStatement ⟨.empty, true⟩
  pure draft.file

end Machine

/-- Parses a source text with a machine. -/
def Machine.parseFile (source : List Char) : Except Fault ParseResult :=
  match Machine.file source (.start source) with
  | .done file s => .ok (.tree file s.log.reverse)
  | .failed s => .ok (.unclosed s.log.reverse)
  | .fault f => .error f

end ProtoSchema
