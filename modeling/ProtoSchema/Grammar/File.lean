/-
Files in the grammar.

A file is a sequence of statements.  A statement that does not parse is skipped, so
that one mistake does not hide another; only a body that is never closed ends the
parse without a tree.  The dialect is chosen by the first statement or not at all, and
the package is the first one that is named.
-/
import ProtoSchema.Grammar.Declaration
import ProtoSchema.Tree.File

namespace ProtoSchema

/-! ### Statements -/

/-- A statement of a file. -/
inductive Statement where
  /-- The choice of a dialect, or of something that is none. -/
  | dialect (choice : Option Dialect) (span : Span)
  | package (p : Package)
  | dependency (i : Import)
  | option (o : OptionStatement)
  | message (m : Message)
  | enum (e : Enum)
  | extend (e : Extend)
  | service (s : Service)

/-- Whether a path is relative, with forward slashes and without special segments. -/
def isImportPath (path : List Char) : Bool :=
  !path.contains '\\' &&
    (Text.segments '/' path).all fun s => s ≠ [] && s ≠ ['.'] && s ≠ ['.', '.']

/-- The dialect that a string names, if it names one. -/
def Dialect.ofBytes? (bytes : List UInt8) : Option Dialect :=
  if bytes = Utf8.encode Dialect.proto2.text.toList then some .proto2
  else if bytes = Utf8.encode Dialect.proto3.text.toList then some .proto3
  else none

namespace Parser

/-- The choice of a dialect. -/
def dialectStatement : Parser Statement := do
  let start ← expectKeyword .kwSyntax
  let _ ← expectMark .equals
  let value ← stringLiteral
  let choice := Dialect.ofBytes? value.bytes
  if choice.isNone then
    report (.unknownSyntax (String.ofList (Utf8.decodeLossy value.bytes)) value.span)
  let stop ← expectMark .semicolon
  pure (.dialect choice (start.through stop))

def packageStatement : Parser Package := do
  let start ← expectKeyword .kwPackage
  let name ← dottedName (.mark .semicolon)
  let stop ← expectMark .semicolon
  pure ⟨name, start.through stop⟩

/-- The kind of an import, if a word for one comes next. -/
def importKind? : Parser (Option (ImportKind × Span)) := do
  match ← peekKeyword with
  | some .kwWeak => do
    let s ← expectKeyword .kwWeak
    pure (some (.weakImport, s))
  | some .kwPublic => do
    let s ← expectKeyword .kwPublic
    pure (some (.publicImport, s))
  | _ => do
    match ← peek with
    | some (.string _) => pure none
    | _ => unexpected .importTarget

def importStatement : Parser Import := do
  let start ← expectKeyword .kwImport
  let kind ← importKind?
  let path ← textLiteral
  if !isImportPath path.text.toList then report (.invalidImport path.span)
  let stop ← expectMark .semicolon
  pure ⟨kind, path.text, path.span, start.through stop⟩

/-- A statement. -/
def statement : Parser Statement := do
  match ← peekKeyword with
  | some .kwSyntax => dialectStatement
  | some .kwPackage => .package <$> packageStatement
  | some .kwImport => .dependency <$> importStatement
  | some .kwOption => .option <$> optionStatement
  | some .kwMessage => .message <$> message
  | some .kwEnum => .enum <$> enum
  | some .kwExtend => .extend <$> extend
  | some .kwService => .service <$> service
  | _ => unexpected .statement

end Parser

/-! ### Files -/

/--
A file with one more statement, and what is wrong with the place of that statement.
Only the first statement chooses a dialect.
-/
def File.place (file : File) (first : Bool) : Statement → File × List Diagnostic
  | .dialect choice span =>
    match file.dialectSpan with
    | some earlier => (file, [.duplicateSyntax earlier span])
    | none =>
      if first then
        ({ file with dialectSpan := some span, dialect := choice.getD file.dialect }, [])
      else (file, [.syntaxNotFirst span])
  | .package p =>
    match file.package with
    | some earlier => (file, [.duplicatePackage earlier.span p.span])
    | none => ({ file with package := some p }, [])
  | .dependency i => ({ file with imports := file.imports ++ [i] }, [])
  | .option o => ({ file with options := file.options ++ [o] }, [])
  | .message m => ({ file with messages := file.messages ++ [m] }, [])
  | .enum e => ({ file with enums := file.enums ++ [e] }, [])
  | .extend e => ({ file with extendBlocks := file.extendBlocks ++ [e] }, [])
  | .service s => ({ file with services := file.services ++ [s] }, [])

namespace Parser

/-- Reports diagnostics in order. -/
def reportAll (ds : List Diagnostic) : Parser Unit := ds.forM report

/-- A file in the making, and whether its next statement is the first. -/
structure Draft where
  file : File
  first : Bool

/--
One more statement, or nothing at the end of the source.  A brace that closes nothing
has been reported by the statement that failed, and is skipped alone.
-/
def nextStatement (draft : Draft) : Parser (Option Draft) := do
  match ← peek with
  | none => pure none
  | some (.mark .semicolon) => do
    let _ ← acceptMark? .semicolon
    pure (some draft)
  | some t => do
    match ← attempt statement with
    | some s => do
      let (file, ds) := draft.file.place draft.first s
      reportAll ds
      pure (some ⟨file, false⟩)
    | none => do
      if t = .mark .rightBrace then
        let _ ← acceptMark? .rightBrace
      else recover
      pure (some { draft with first := false })

/-- A whole file. -/
def file : Parser File := do
  let draft ← iterate nextStatement ⟨.empty, true⟩
  pure draft.file

end Parser

/-- The tree of a file with what there is to report, or only the latter if there is no tree. -/
inductive ParseResult where
  | tree (file : File) (diagnostics : List Diagnostic)
  | unclosed (diagnostics : List Diagnostic)

/-- Parses a source text. -/
def parseFile (source : List Char) : ParseResult :=
  match Parser.file ⟨source, false⟩ ⟨scan source, []⟩ with
  | .done file r => .tree file r.log.reverse
  | .halted _ r => .unclosed r.log.reverse

end ProtoSchema
