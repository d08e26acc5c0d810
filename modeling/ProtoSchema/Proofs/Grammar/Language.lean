/-
The grammar of the schema language.

One rule for each kind of node.  Its last line builds the node, everything before it is
the grammar: marks and words in their order, parts that may be missing, and
alternatives.  Words have no meaning of their own, so a name may be any word.  Where a
word would be ambiguous it is a keyword: `map`, a label or a scalar type in front of a
field, `stream` before the type of a method, and at the start of a member those words
that start another kind of member.
-/
import ProtoSchema.Grammar.File
import ProtoSchema.Proofs.Grammar.Rule

namespace ProtoSchema.Rule

open ProtoSchema.Parser (OneofMember EnumMember ServiceMember MessageMember Draft)

/-! ### Names and literals -/

def ident : Rule Ident :=
  token fun
    | .ident text, s => some ⟨text, s⟩
    | _, _ => none

/-- Words joined by dots. -/
def dottedName : Rule DottedName := do
  let first ← ident
  let rest ← many do
    let _ ← mark .dot
    ident
  pure ⟨first, rest⟩

/-- The name of a type, with a dot in front or without. -/
def typeName : Rule TypeName :=
  (do
    let dot ← mark .dot
    let name ← dottedName
    pure ⟨some dot, name⟩) <|>
  (do
    let name ← dottedName
    pure ⟨none, name⟩)

/-- An integer with an optional minus sign. -/
def integer : Rule IntLiteral := do
  let minus ← optional (mark .minus)
  let (n, s) ← token fun
    | .int n, s => some (n, s)
    | _, _ => none
  match minus with
  | some m => pure ⟨true, n, m.through s⟩
  | none => pure ⟨false, n, s⟩

/-- String literals in a row. -/
def stringLiteral : Rule StringLiteral := do
  let first ← token Parser.quoted?
  let rest ← many (token Parser.quoted?)
  pure ⟨first.bytes ++ rest.flatMap StringLiteral.bytes,
    first.span.through (rest.getLastD first).span⟩

/-- A string of characters. -/
def textLiteral : Rule Ident := do
  let s ← stringLiteral
  match Utf8.decode? s.bytes with
  | some text => pure ⟨String.ofList text, s.span⟩
  | none => do
    remark (.invalidUtf8String s.span)
    pure ⟨String.ofList (Utf8.decodeLossy s.bytes), s.span⟩

/-! ### Options -/

/-- A number or a word behind a minus sign, or without one. -/
def signedValue (minus : Option Span) : Rule OptionValue := do
  let negative := minus.isSome
  let signed (s : Span) : Span := (minus.getD s).through s
  let value ← token fun
    | .int n, s => some (.int ⟨negative, n, signed s⟩)
    | .float x, s => some (.float (if negative then x.neg else x) (signed s))
    | .ident word, s => some (.ident negative ⟨word, s⟩ (signed s))
    | _, _ => none
  match value with
  | .ident true name s => if Parser.isNegatable name.text then pure () else remark (.negativeIdent s)
  | _ => pure ()
  pure value

/-- A block in braces, by its text. -/
def aggregate : Rule OptionValue := do
  let opening ← mark .leftBrace
  let closing ← blockEnd
  let text ← trimmedText ⟨opening.stop, closing.start⟩
  pure (.aggregate text (opening.through closing))

def optionValue : Rule OptionValue :=
  signedValue none <|>
  (do
    let _ ← mark .plus
    signedValue none) <|>
  (do
    let minus ← mark .minus
    signedValue (some minus)) <|>
  (do
    let s ← stringLiteral
    pure (.string s)) <|>
  aggregate

/-- A part of an option's name: an extension in parentheses, or a word. -/
def optionNamePart : Rule OptionNamePart :=
  (do
    let opening ← mark .leftParen
    let name ← typeName
    let closing ← mark .rightParen
    pure (.extension name (opening.through closing))) <|>
  (do
    let name ← ident
    pure (.ident name))

def optionSetting : Rule OptionSetting := do
  let first ← optionNamePart
  let rest ← many do
    let _ ← mark .dot
    optionNamePart
  let _ ← mark .equals
  let value ← optionValue
  pure ⟨first, rest, value⟩

def optionStatement : Rule OptionStatement := do
  let start ← keyword .kwOption
  let setting ← optionSetting
  let stop ← mark .semicolon
  pure ⟨setting, start.through stop⟩

/-- Options in brackets. -/
def optionList : Rule OptionList := do
  let opening ← mark .leftBracket
  let settings ← separated optionSetting
  let closing ← mark .rightBracket
  pure ⟨settings, opening.through closing⟩

/-! ### Fields -/

def label? : Rule (Option (Label × Span)) :=
  token? fun
    | .ident word, s => (Parser.labelOf? word).map (·, s)
    | _, _ => none

/-- A type: a scalar type, if the word for one comes next, and a name otherwise. -/
def typeUse : Rule (TypeUse × Span) := do
  match ← token? (fun
      | .ident word, s => (ScalarType.ofText? word).map (·, s)
      | _, _ => none) with
  | some (type, s) => pure (.scalar type, s)
  | none => do
    let name ← typeName
    pure (.named name, name.span)

/-- The type of a field: a map, if the word `map` comes next, and one type otherwise. -/
def fieldKind : Rule FieldKind := do
  match ← keyword? .kwMap with
  | some start => do
    let _ ← mark .leftAngle
    let (key, keySpan) ← typeUse
    let _ ← mark .comma
    let (value, valueSpan) ← typeUse
    let stop ← mark .rightAngle
    pure (.map key keySpan value valueSpan (start.through stop))
  | none => do
    let (type, s) ← typeUse
    pure (.plain type s)

def field : Rule Field := do
  let label ← label?
  let kind ← fieldKind
  let name ← ident
  let _ ← mark .equals
  let number ← integer
  let options ← optional optionList
  let stop ← mark .semicolon
  let start := match label with
    | some (_, s) => s
    | none => kind.span
  pure ⟨label, kind, name, number, options, start.through stop⟩

/-! ### Ranges and reservations -/

/-- A number, or a range of numbers, which may have no end. -/
def numberRange : Rule NumberRange := do
  let start ← integer
  (do
    let _ ← keyword .kwTo
    (do
      let s ← keyword .kwMax
      pure ⟨start, .max s⟩) <|>
    (do
      let stop ← integer
      pure ⟨start, .to stop⟩)) <|>
  pure ⟨start, .same⟩

def reservedName : Rule Ident := ident <|> textLiteral

def reservedStatement : Rule Reserved := do
  let start ← keyword .kwReserved
  let kind ← (.ranges <$> separated numberRange) <|> (.names <$> separated reservedName)
  let stop ← mark .semicolon
  pure ⟨kind, start.through stop⟩

def extensionsStatement : Rule Extensions := do
  let start ← keyword .kwExtensions
  let ranges ← separated numberRange
  let options ← optional optionList
  let stop ← mark .semicolon
  pure ⟨ranges, options, start.through stop⟩

/-! ### Oneofs, extensions and enums -/

def oneofMember : Rule OneofMember :=
  switch [(.kwOption, .option <$> optionStatement)] (.field <$> field)

def oneof : Rule Oneof := do
  let start ← keyword .kwOneof
  let name ← ident
  let (members, stop) ← body oneofMember
  pure ⟨name, members.filterMap OneofMember.option?, members.filterMap OneofMember.field?,
    start.through stop⟩

def extend : Rule Extend := do
  let start ← keyword .kwExtend
  let extendee ← typeName
  let (fields, stop) ← body field
  pure ⟨extendee, fields, start.through stop⟩

def enumValue : Rule EnumValue := do
  let name ← ident
  let _ ← mark .equals
  let number ← integer
  let options ← optional optionList
  let stop ← mark .semicolon
  pure ⟨name, number, options, name.span.through stop⟩

def enumMember : Rule EnumMember :=
  switch [(.kwOption, .option <$> optionStatement), (.kwReserved, .reserved <$> reservedStatement)]
    (.value <$> enumValue)

def enum : Rule Enum := do
  let start ← keyword .kwEnum
  let name ← ident
  let (members, stop) ← body enumMember
  pure ⟨name, members.filterMap EnumMember.option?, members.filterMap EnumMember.value?,
    members.filterMap EnumMember.reserved?, start.through stop⟩

/-! ### Services -/

/-- The input or the output of a method, and the word `stream` before it. -/
def methodType : Rule (Option Span × TypeName) := do
  let _ ← mark .leftParen
  let streaming ← keyword? .kwStream
  let type ← typeName
  let _ ← mark .rightParen
  pure (streaming, type)

def methodEnd : Rule (List OptionStatement × Span) :=
  (do
    let s ← mark .semicolon
    pure ([], s)) <|>
  body optionStatement

def method : Rule Method := do
  let start ← keyword .kwRpc
  let name ← ident
  let (clientStreaming, input) ← methodType
  let _ ← keyword .kwReturns
  let (serverStreaming, output) ← methodType
  let (options, stop) ← methodEnd
  pure ⟨name, input, output, options, clientStreaming, serverStreaming, start.through stop⟩

def serviceMember : Rule ServiceMember :=
  switch [(.kwOption, .option <$> optionStatement), (.kwRpc, .method <$> method)] fail

def service : Rule Service := do
  let start ← keyword .kwService
  let name ← ident
  let (members, stop) ← body serviceMember
  pure ⟨name, members.filterMap ServiceMember.option?, members.filterMap ServiceMember.method?,
    start.through stop⟩

/-! ### Messages -/

/-- A member of a message, given a rule for the messages within it. -/
def messageMember (nested : Rule Message) : Rule MessageMember :=
  switch
    [(.kwMessage, (.item <| .message ·) <$> nested),
     (.kwEnum, (.item <| .enum ·) <$> enum),
     (.kwOneof, (.item <| .oneof ·) <$> oneof),
     (.kwExtend, (.item <| .extend ·) <$> extend),
     (.kwOption, .option <$> optionStatement),
     (.kwReserved, .reserved <$> reservedStatement),
     (.kwExtensions, .extensions <$> extensionsStatement)]
    ((.item <| .field ·) <$> field)

/-- A message in which messages are nested less than so many deep. -/
def messageUpTo : Nat → Rule Message
  | 0 => fail
  | depth + 1 => do
    let start ← keyword .kwMessage
    let name ← ident
    let (members, stop) ← body (messageMember (messageUpTo depth))
    pure ⟨name, members.filterMap MessageMember.item?, members.filterMap MessageMember.option?,
      members.filterMap MessageMember.reserved?, members.filterMap MessageMember.extensions?,
      start.through stop⟩

/-- A message, with messages nested as deep as may be. -/
def message : Rule Message := fun source ls m ds rest =>
  ∃ depth, messageUpTo depth source ls m ds rest

/-! ### Files -/

/-- The choice of a dialect. -/
def dialectStatement : Rule Statement := do
  let start ← keyword .kwSyntax
  let _ ← mark .equals
  let value ← stringLiteral
  let choice := Dialect.ofBytes? value.bytes
  if choice.isNone then
    remark (.unknownSyntax (String.ofList (Utf8.decodeLossy value.bytes)) value.span)
  let stop ← mark .semicolon
  pure (.dialect choice (start.through stop))

def packageStatement : Rule Package := do
  let start ← keyword .kwPackage
  let name ← dottedName
  let stop ← mark .semicolon
  pure ⟨name, start.through stop⟩

def importKind : Rule (ImportKind × Span) :=
  (do
    let s ← keyword .kwWeak
    pure (.weakImport, s)) <|>
  (do
    let s ← keyword .kwPublic
    pure (.publicImport, s))

def importStatement : Rule Import := do
  let start ← keyword .kwImport
  let kind ← optional importKind
  let path ← textLiteral
  if !isImportPath path.text.toList then remark (.invalidImport path.span)
  let stop ← mark .semicolon
  pure ⟨kind, path.text, path.span, start.through stop⟩

def statement : Rule Statement :=
  switch
    [(.kwSyntax, dialectStatement),
     (.kwPackage, .package <$> packageStatement),
     (.kwImport, .dependency <$> importStatement),
     (.kwOption, .option <$> optionStatement),
     (.kwMessage, .message <$> message),
     (.kwEnum, .enum <$> enum),
     (.kwExtend, .extend <$> extend),
     (.kwService, .service <$> service)]
    fail

/-- Statements and semicolons up to the end of the source, placed in a file one by one. -/
inductive Statements (source : List Char) :
    Draft → List Lexeme → Draft → List Diagnostic → Prop
  | nil (draft : Draft) : Statements source draft [] draft []
  | semicolon {draft last : Draft} {s : Span} {ls : List Lexeme} {ds : List Diagnostic}
      (others : Statements source draft ls last ds) :
      Statements source draft (.token (.mark .semicolon) s :: ls) last ds
  | statement {draft last : Draft} {st : Statement} {ls mid : List Lexeme}
      {ds₁ ds₂ : List Diagnostic} (first : statement source ls st ds₁ mid)
      (others : Statements source ⟨(draft.file.place draft.first st).1, false⟩ mid last ds₂) :
      Statements source draft ls last (ds₁ ++ (draft.file.place draft.first st).2 ++ ds₂)

/-- A whole file. -/
def file (source : List Char) (ls : List Lexeme) (f : File) (ds : List Diagnostic) : Prop :=
  ∃ draft, Statements source ⟨.empty, true⟩ ls draft ds ∧ f = draft.file

end ProtoSchema.Rule
