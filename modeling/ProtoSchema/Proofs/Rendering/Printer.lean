/-
A tree as source text.

The text is a row of pieces with a blank behind each.  Nearly every piece is a token; the
other kind is a block of text in braces, which a tree keeps as it was written.  The
pieces of a node follow its rule in the grammar.  Where the grammar leaves a choice the
printer takes one: a dialect is always stated, members stand grouped by kind, strings are
one literal each, and reserved names are strings.
-/
import ProtoSchema.Token
import ProtoSchema.Tree.File
import ProtoSchema.Keyword
import ProtoSchema.Text.Utf8

namespace ProtoSchema

/-! ### Pieces -/

/-- A part of a source text that stands between blanks. -/
inductive Piece where
  | token (t : Token)
  /-- A text in braces. -/
  | block (text : String)
deriving DecidableEq, Repr

namespace Piece

def text : Piece → List Char
  | token t => t.text.toList
  | block text => "\x7b ".toList ++ text.toList ++ " \x7d".toList

def word (text : String) : Piece := token (.ident text)

def keyword (k : Keyword) : Piece := word k.text

def mark (p : Punctuation) : Piece := token (.mark p)

/-- A string of characters, as a literal. -/
def literal (text : String) : Piece := token (.string (Utf8.encode text.toList))

/-- Pieces of several things with commas between them. -/
def separated {α : Type} (pieces : α → List Piece) : List α → List Piece
  | [] => []
  | x :: xs => pieces x ++ xs.flatMap fun y => mark .comma :: pieces y

/-- Members between braces. -/
def body (members : List Piece) : List Piece := mark .leftBrace :: members ++ [mark .rightBrace]

/-- The text of pieces, with a blank behind each. -/
def render (ps : List Piece) : List Char := ps.flatMap fun p => p.text ++ [' ']

end Piece

open Piece (word keyword mark literal separated body)

/-! ### Names and values -/

def DottedName.pieces (n : DottedName) : List Piece :=
  word n.first.text :: n.rest.flatMap fun part => [mark .dot, word part.text]

def TypeName.pieces (n : TypeName) : List Piece :=
  (if n.leadingDot.isSome then [mark .dot] else []) ++ n.name.pieces

def signPieces (negative : Bool) : List Piece := if negative then [mark .minus] else []

def IntLiteral.pieces (n : IntLiteral) : List Piece :=
  signPieces n.negative ++ [.token (.int n.magnitude)]

def OptionValue.pieces : OptionValue → List Piece
  | ident negative name _ => signPieces negative ++ [word name.text]
  | int n => n.pieces
  | float value _ => [.token (.float value)]
  | string s => [.token (.string s.bytes)]
  | aggregate text _ => [.block text]

def OptionNamePart.pieces : OptionNamePart → List Piece
  | ident name => [word name.text]
  | extension name _ => mark .leftParen :: name.pieces ++ [mark .rightParen]

def OptionSetting.pieces (o : OptionSetting) : List Piece :=
  o.first.pieces ++ (o.rest.flatMap fun part => mark .dot :: part.pieces) ++
    mark .equals :: o.value.pieces

def OptionStatement.pieces (o : OptionStatement) : List Piece :=
  keyword .kwOption :: o.setting.pieces ++ [mark .semicolon]

/-- Options in brackets, or nothing where there is no list. -/
def OptionList.pieces : Option OptionList → List Piece
  | none => []
  | some l => mark .leftBracket :: separated OptionSetting.pieces l.settings ++ [mark .rightBracket]

/-! ### Fields and ranges -/

def Label.keyword : Label → Keyword
  | optional => .kwOptional
  | required => .kwRequired
  | repeated => .kwRepeated

def TypeUse.pieces : TypeUse → List Piece
  | scalar t => [word t.text]
  | named n => n.pieces

def FieldKind.pieces : FieldKind → List Piece
  | plain type _ => type.pieces
  | map key _ value _ _ =>
    [keyword .kwMap, mark .leftAngle] ++ key.pieces ++ mark .comma :: value.pieces ++
      [mark .rightAngle]

def Field.pieces (f : Field) : List Piece :=
  f.label.toList.map (fun l => Piece.keyword l.1.keyword) ++ f.kind.pieces ++
    [word f.name.text, mark .equals] ++ f.number.pieces ++ OptionList.pieces f.options ++
    [mark .semicolon]

def RangeEnd.pieces : RangeEnd → List Piece
  | .same => []
  | .to n => keyword .kwTo :: n.pieces
  | .max _ => [keyword .kwTo, keyword .kwMax]

def NumberRange.pieces (r : NumberRange) : List Piece := r.start.pieces ++ r.stop.pieces

def ReservedKind.pieces : ReservedKind → List Piece
  | ranges rs => separated NumberRange.pieces rs
  | names ns => separated (fun n => [literal n.text]) ns

def Reserved.pieces (r : Reserved) : List Piece :=
  keyword .kwReserved :: r.kind.pieces ++ [mark .semicolon]

def Extensions.pieces (e : Extensions) : List Piece :=
  keyword .kwExtensions :: separated NumberRange.pieces e.ranges ++ OptionList.pieces e.options ++
    [mark .semicolon]

/-! ### Declarations with a body -/

def Oneof.pieces (o : Oneof) : List Piece :=
  [keyword .kwOneof, word o.name.text] ++
    body (o.options.flatMap OptionStatement.pieces ++ o.fields.flatMap Field.pieces)

def Extend.pieces (e : Extend) : List Piece :=
  keyword .kwExtend :: e.extendee.pieces ++ body (e.fields.flatMap Field.pieces)

def EnumValue.pieces (v : EnumValue) : List Piece :=
  [word v.name.text, mark .equals] ++ v.number.pieces ++ OptionList.pieces v.options ++
    [mark .semicolon]

def Enum.pieces (e : Enum) : List Piece :=
  [keyword .kwEnum, word e.name.text] ++
    body (e.options.flatMap OptionStatement.pieces ++ e.values.flatMap EnumValue.pieces ++
      e.reserved.flatMap Reserved.pieces)

/-- The input or the output of a method. -/
def TypeName.methodPieces (streaming : Option Span) (n : TypeName) : List Piece :=
  mark .leftParen :: (if streaming.isSome then [keyword .kwStream] else []) ++ n.pieces ++
    [mark .rightParen]

/-- The options of a method in braces, or a semicolon where there are none. -/
def Method.endPieces : List OptionStatement → List Piece
  | [] => [mark .semicolon]
  | o :: os => body ((o :: os).flatMap OptionStatement.pieces)

def Method.pieces (m : Method) : List Piece :=
  [keyword .kwRpc, word m.name.text] ++ m.input.methodPieces m.clientStreaming ++
    keyword .kwReturns :: m.output.methodPieces m.serverStreaming ++ Method.endPieces m.options

def Service.pieces (s : Service) : List Piece :=
  [keyword .kwService, word s.name.text] ++
    body (s.options.flatMap OptionStatement.pieces ++ s.methods.flatMap Method.pieces)

mutual

def Message.pieces : Message → List Piece
  | ⟨name, items, options, reserved, extensions, _⟩ =>
    [keyword .kwMessage, word name.text] ++
      body (MessageItem.piecesAll items ++ options.flatMap OptionStatement.pieces ++
        reserved.flatMap Reserved.pieces ++ extensions.flatMap Extensions.pieces)

def MessageItem.piecesAll : List MessageItem → List Piece
  | [] => []
  | i :: is => MessageItem.pieces i ++ MessageItem.piecesAll is

def MessageItem.pieces : MessageItem → List Piece
  | .field f => f.pieces
  | .oneof o => o.pieces
  | .message m => Message.pieces m
  | .enum e => e.pieces
  | .extend e => e.pieces

end

theorem MessageItem.piecesAll_eq (items : List MessageItem) :
    MessageItem.piecesAll items = items.flatMap MessageItem.pieces := by
  induction items with
  | nil => rfl
  | cons i is ih => rw [MessageItem.piecesAll, ih, List.flatMap_cons]

/-! ### Files -/

def Dialect.pieces (d : Dialect) : List Piece :=
  [keyword .kwSyntax, mark .equals, literal d.text, mark .semicolon]

def Package.pieces (p : Package) : List Piece :=
  keyword .kwPackage :: p.name.pieces ++ [mark .semicolon]

def ImportKind.keyword : ImportKind → Keyword
  | weakImport => .kwWeak
  | publicImport => .kwPublic

def Import.pieces (i : Import) : List Piece :=
  keyword .kwImport :: i.kind.toList.map (fun k => Piece.keyword k.1.keyword) ++
    [literal i.path, mark .semicolon]

/-- The statement about the dialect comes first, then the other statements kind by kind. -/
def File.pieces (f : File) : List Piece :=
  f.dialect.pieces ++ f.package.toList.flatMap Package.pieces ++ f.imports.flatMap Import.pieces ++
    f.options.flatMap OptionStatement.pieces ++ f.messages.flatMap Message.pieces ++
    f.enums.flatMap Enum.pieces ++ f.extendBlocks.flatMap Extend.pieces ++
    f.services.flatMap Service.pieces

/-- The text of a file. -/
def File.render (f : File) : List Char := Piece.render f.pieces

end ProtoSchema
