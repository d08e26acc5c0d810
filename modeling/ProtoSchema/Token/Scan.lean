/-
From characters to tokens.

At each place of a source text stands exactly one of four things: a token, blank space
or a comment, a character that starts no token, or the rest of something read before.
The scanner goes through the text once, character by character, and either skips or
reads what stands there.  It never looks back, and what it produces is one list: tokens
and illegal characters where they stand, and before each of them what there was to
report about it.
-/
import ProtoSchema.Token.Quoted

namespace ProtoSchema

/-- One thing that scanning yields. -/
inductive Lexeme where
  | token (token : Token) (span : Span)
  /-- A character that starts no token. -/
  | illegal (char : Char) (span : Span)
  /-- Something to report. -/
  | note (diagnostic : Diagnostic)
deriving DecidableEq, Repr

/-! ### What stands at one place -/

/-- The characters between tokens. -/
def isSpace (c : Char) : Bool :=
  c = ' ' || c = '\t' || c = '\n' || c = '\x0b' || c = '\x0c' || c = '\r'

/-- The characters that start a word. -/
def isWordStart (c : Char) : Bool := c.isAlpha || c = '_'

/-- The characters that continue a word. -/
def isWordPart (c : Char) : Bool := c.isAlphanum || c = '_'

/-- What stands at one place of a text. -/
inductive Reading where
  | token (token : Token)
  | illegal
  | blank
deriving DecidableEq, Repr

/-- What was read, the number of characters it takes, and what there is to report. -/
structure Item where
  reading : Reading
  width : Nat
  notes : List Diagnostic
deriving DecidableEq, Repr

/-- The number of characters up to and with the first end of a block comment. -/
def commentLength? : List Char → Option Nat
  | [] => none
  | '*' :: '/' :: _ => some 2
  | _ :: cs => (commentLength? cs).map (· + 1)

namespace Item

/-- What a slash starts: a comment, or nothing. -/
def readSlash (offset : Nat) : List Char → Item
  | '/' :: cs => ⟨.blank, 2 + (cs.takeWhile (· ≠ '\n')).length, []⟩
  | '*' :: cs =>
    match commentLength? cs with
    | some n => ⟨.blank, 2 + n, []⟩
    | none => ⟨.blank, 2 + cs.length, [.unterminatedBlockComment ⟨offset, offset + 2⟩]⟩
  | _ => ⟨.illegal, 1, []⟩

/--
The notes on an integer: a word that touches it, and a value that does not fit.  All
characters concerned take one byte each.
-/
def integerNotes (offset width : Nat) (rest : List Char) (value? : Option UInt64) :
    List Diagnostic :=
  let stop := offset + width
  (match rest with
   | c :: _ =>
     if isWordStart c then
       [.noSpaceBetweenIntAndIdent ⟨offset, stop + (rest.takeWhile isWordPart).length⟩]
     else []
   | [] => []) ++
  (if value?.isNone then [.integerOutOfRange ⟨offset, stop⟩] else [])

/-- The numeral at the front of a text. -/
def readNumeral (offset : Nat) (cs : List Char) : Item :=
  let (numeral, width) := Numeral.read cs
  match numeral with
  | .float value => ⟨.token (.float (.ofDecimal value)), width, []⟩
  | .zero => ⟨.token (.int 0), width, []⟩
  | .integer radix ds =>
    let value? := integerValue? radix ds
    ⟨.token (.int (value?.getD 0)), width, integerNotes offset width (cs.drop width) value?⟩

/-- What stands at the front of the text `c :: cs`, which starts at `offset`. -/
def read (offset : Nat) (c : Char) (cs : List Char) : Item :=
  if isSpace c then ⟨.blank, 1, []⟩
  else if isWordStart c then
    let name := c :: cs.takeWhile isWordPart
    ⟨.token (.ident (String.ofList name)), name.length, []⟩
  else if c.isDigit || (c = '.' && (cs.head?.any Char.isDigit)) then readNumeral offset (c :: cs)
  else if c = '\'' || c = '"' then
    let q := Quoted.read c (offset + 1) cs
    ⟨.token (.string q.bytes), 1 + q.width, q.diagnostics offset⟩
  else if c = '/' then readSlash offset cs
  else
    match Punctuation.ofChar? c with
    | some p => ⟨.token (.mark p), 1, []⟩
    | none => ⟨.illegal, 1, []⟩

/-- What an item at the front of the text `c :: cs` contributes to the scan. -/
def lexemes (item : Item) (offset : Nat) (c : Char) (cs : List Char) : List Lexeme :=
  let span : Span := ⟨offset, offset + Utf8.size ((c :: cs).take item.width)⟩
  item.notes.map .note ++
    (match item.reading with
     | .token t => [.token t span]
     | .illegal => [.illegal c span]
     | .blank => [])

end Item

/-! ### The whole text -/

/-- Scans a text whose first `skip` characters belong to an item that was read already. -/
def scanFrom : (skip offset : Nat) → List Char → List Lexeme
  | _, _, [] => []
  | skip + 1, offset, c :: cs => scanFrom skip (offset + c.utf8Size) cs
  | 0, offset, c :: cs =>
    let item := Item.read offset c cs
    item.lexemes offset c cs ++ scanFrom (item.width - 1) (offset + c.utf8Size) cs

/-- The lexemes of a source text.  A byte order mark at its front is no part of it. -/
def scan (source : List Char) : List Lexeme :=
  match source with
  | '\uFEFF' :: cs => scanFrom 0 3 cs
  | cs => scanFrom 0 0 cs

/-- What there was to report. -/
def Lexeme.note? : Lexeme → Option Diagnostic
  | note d => some d
  | _ => none

end ProtoSchema
