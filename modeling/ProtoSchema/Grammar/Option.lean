/-
Options in the grammar.

The name of an option is a sequence of words and of extension names in parentheses.
Its value is a word, a number with an optional sign, a string, or a block in braces.  A
block is not parsed further: its text is kept, up to the brace that closes it.
-/
import ProtoSchema.Grammar.Name
import ProtoSchema.Text.Blank
import ProtoSchema.Text.Slice

namespace ProtoSchema

namespace Parser

/-! ### Values -/

/-- Whether a word may stand behind a minus sign. -/
def isNegatable (word : String) : Bool := word = "inf" || word = "nan"

/-- A number or a word, behind a minus sign that stood at `minus`, or without one. -/
def signedValue (minus : Option Span) : Parser OptionValue := do
  let negative := minus.isSome
  let signed (s : Span) : Span := (minus.getD s).through s
  let value ← require .number fun
    | .int n, s => some (.int ⟨negative, n, signed s⟩)
    | .float x, s => some (.float (if negative then x.neg else x) (signed s))
    | .ident word, s => some (.ident negative ⟨word, s⟩ (signed s))
    | _, _ => none
  match value with
  | .ident true name s => if isNegatable name.text then pure () else report (.negativeIdent s)
  | _ => pure ()
  pure value

/--
Drops lexemes to the brace that closes a block in which `depth` further ones are open.
The place of that brace is missing if the source ends before.
-/
def skipBlock : (depth : Nat) → List Diagnostic → List Lexeme → Option Span × Remainder
  | _, log, [] => (none, ⟨[], log⟩)
  | depth, log, .note d :: ls => skipBlock depth (d :: log) ls
  | depth, log, .illegal c s :: ls => skipBlock depth (.invalidToken c s :: log) ls
  | depth, log, .token t s :: ls =>
    if t = .mark .leftBrace then skipBlock (depth + 1) log ls
    else if t = .mark .rightBrace then
      match depth with
      | 0 => (some s, ⟨ls, log⟩)
      | depth + 1 => skipBlock depth log ls
    else skipBlock depth log ls

theorem skipBlock_plain {t : Token} (hl : t ≠ .mark .leftBrace) (hr : t ≠ .mark .rightBrace)
    (depth : Nat) (log : List Diagnostic) (s : Span) (ls : List Lexeme) :
    skipBlock depth log (.token t s :: ls) = skipBlock depth log ls := by
  cases depth <;> rw [skipBlock, if_neg hl, if_neg hr]

/-- The rest of a block in braces, and the place of its closing brace. -/
def blockEnd : Parser Span := fun env r =>
  match skipBlock 0 r.log r.lexemes with
  | (some s, r) => .done s r
  | (none, r) => unexpected (.mark .rightBrace) env r

/-- The text of a part of the source, without white space around it. -/
def trimmedSource (span : Span) : Parser String := fun env r =>
  .done (String.ofList (Text.trim (Text.slice env.source span))) r

/-- A block in braces, by its text. -/
def aggregate : Parser OptionValue := do
  let opening ← expectMark .leftBrace
  let closing ← blockEnd
  let text ← trimmedSource ⟨opening.stop, closing.start⟩
  pure (.aggregate text (opening.through closing))

/-- The value of an option. -/
def optionValue : Parser OptionValue := do
  match ← peek with
  | some (.ident _) => do
    let name ← ident
    pure (.ident false name name.span)
  | some (.mark .plus) => do
    let _ ← acceptMark? .plus
    signedValue none
  | some (.mark .minus) => do
    let minus ← expectMark .minus
    signedValue (some minus)
  | some (.int _) | some (.float _) => signedValue none
  | some (.string _) => do
    let s ← stringLiteral
    pure (.string s)
  | some (.mark .leftBrace) => aggregate
  | _ => unexpected .constant

/-! ### Settings -/

/-- A part of an option's name. -/
def optionNamePart : Parser OptionNamePart := do
  match ← peek with
  | some (.mark .leftParen) => do
    let opening ← expectMark .leftParen
    let name ← typeName (.mark .rightParen)
    let closing ← expectMark .rightParen
    pure (.extension name (opening.through closing))
  | some (.ident _) => do
    let name ← ident
    pure (.ident name)
  | _ => unexpected .optionNamePart

/-- A name and its value, with an equals sign between them. -/
def optionSetting : Parser OptionSetting := do
  let first ← optionNamePart
  let rest ← many do
    match ← acceptMark? .dot with
    | some _ => do
      let part ← optionNamePart
      pure (.yield part)
    | none => do
      match ← acceptMark? .equals with
      | some _ => pure .stop
      | none => unexpected .optionNameEnd
  let value ← optionValue
  pure ⟨first, rest, value⟩

/-- An option statement. -/
def optionStatement : Parser OptionStatement := do
  let start ← expectKeyword .kwOption
  let setting ← optionSetting
  let stop ← expectMark .semicolon
  pure ⟨setting, start.through stop⟩

/-- Options in brackets, separated by commas. -/
def optionList : Parser OptionList := do
  let opening ← expectMark .leftBracket
  let first ← optionSetting
  let rest ← many do
    match ← acceptMark? .comma with
    | some _ => do
      let setting ← optionSetting
      pure (.yield setting)
    | none => do
      match ← peek with
      | some (.mark .rightBracket) => pure .stop
      | _ => unexpected .optionListEnd
  let closing ← expectMark .rightBracket
  pure ⟨first :: rest, opening.through closing⟩

/-- Options in brackets, if a bracket comes next. -/
def optionList? : Parser (Option OptionList) := do
  match ← peek with
  | some (.mark .leftBracket) => do
    let list ← optionList
    pure (some list)
  | _ => pure none

end Parser

end ProtoSchema
