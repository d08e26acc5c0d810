/-
Reading one schema source.

Reading a source gives its descriptor and everything that is wrong with it, ordered by
place.  There is no descriptor only if the source cannot be had, is no text, or ends
within a body; in the last case what was found so far is given in the order in which
it was found.
-/
import ProtoSchema.Assembly.File
import ProtoSchema.Grammar.File
import ProtoSchema.Position

namespace ProtoSchema

/-! ### Results -/

/-- What is wrong with a source, for showing it to someone. -/
structure Report where
  /-- The name of the source. -/
  file : String
  /-- The bytes of the source. -/
  source : List UInt8
  diagnostics : List Diagnostic

namespace Report

/-- The line and column of a place in the source. -/
def position? (r : Report) (span : Span) : Option Position :=
  Position.ofSpan? r.source span

/-- The first problem. -/
def message (r : Report) : String := (r.diagnostics.head?.map Diagnostic.message).getD ""

/-- One line for a problem: where it is, if that can be told, and what it is. -/
def line (r : Report) (d : Diagnostic) : String :=
  let place :=
    match r.position? d.span with
    | some p => toString p.line ++ ":" ++ toString p.column ++ ":"
    | none => ""
  r.file ++ ":" ++ place ++ " " ++ d.message

/-- One line for each problem. -/
def text (r : Report) : String := String.intercalate "\n" (r.diagnostics.map r.line)

end Report

/-- A source that was read. -/
structure Schema where
  descriptor : FileDescriptor
  report : Report

namespace Schema

def hasErrors (s : Schema) : Bool := !s.report.diagnostics.isEmpty

end Schema

/-- Why there is no descriptor. -/
inductive Failure where
  /-- The source ends within a body. -/
  | unclosed (report : Report)
  /-- A file cannot be opened. -/
  | cannotOpen (file reason : String)
  /-- A stream breaks off. -/
  | cannotRead (file reason : String)
  | tooLarge (file : String)
  | notUtf8 (file : String)

namespace Failure

/-- The name of the source. -/
def file : Failure → String
  | unclosed r => r.file
  | cannotOpen f _ | cannotRead f _ | tooLarge f | notUtf8 f => f

/-- Whether the source could not be had. -/
def isUnavailable : Failure → Bool
  | cannotOpen .. | cannotRead .. => true
  | _ => false

/-- Whether the source could be had but not parsed to its end. -/
def isParse : Failure → Bool
  | unclosed _ => true
  | _ => false

/-- The sentence that describes a failure. -/
def message : Failure → String
  | unclosed r => r.message
  | cannotOpen f _ => "error opening file '" ++ f ++ "'"
  | cannotRead f _ => "error reading source for '" ++ f ++ "'"
  | tooLarge f => "file '" ++ f ++ "' is too large"
  | notUtf8 f => "file '" ++ f ++ "' is not valid utf-8"

/-- A failure with all that is known about it. -/
def text : Failure → String
  | unclosed r => r.text
  | f@(cannotOpen _ reason) | f@(cannotRead _ reason) => f.message ++ ": " ++ reason
  | f => f.message

end Failure

/-! ### Reading -/

/-- The largest number of bytes that a source can have. -/
def maxSourceSize : Nat := 2147483647

/-- Reads a text that is not too large. -/
def readChars (name : String) (source : List Char) : Except Failure Schema :=
  let bytes := Utf8.encode source
  match parseFile source with
  | .unclosed ds => .error (.unclosed ⟨name, bytes, ds⟩)
  | .tree file parsing =>
    let (symbols, naming) := SymbolTable.ofFile file
    let described := file.describe name symbols
    let found := parsing ++ naming ++ described.diagnostics
    .ok ⟨described.value, ⟨name, bytes, Diagnostic.sortByStart found⟩⟩

/-- Reads the text of a source. -/
def readText (name : String) (source : String) : Except Failure Schema :=
  if maxSourceSize < source.utf8ByteSize then .error (.tooLarge name)
  else readChars name source.toList

/-- Reads the bytes of a source. -/
def readBytes (name : String) (source : List UInt8) : Except Failure Schema :=
  if maxSourceSize < source.length then .error (.tooLarge name)
  else
    match Utf8.decode? source with
    | some cs => readChars name cs
    | none => .error (.notUtf8 name)

/-- A stream of bytes, as far as it can be read, and why it breaks off, if it does. -/
structure ByteStream where
  chunks : List (List UInt8)
  failure : Option String

/--
Reads a source from a stream.  Reading ends one byte after the largest size, so a
failure behind that is not seen.
-/
def readStream (name : String) (stream : ByteStream) : Except Failure Schema :=
  let bytes := stream.chunks.flatten.take (maxSourceSize + 1)
  match stream.failure with
  | some reason =>
    if bytes.length ≤ maxSourceSize then .error (.cannotRead name reason)
    else readBytes name bytes
  | none => readBytes name bytes

/-- Reads a source from a file, given its bytes or the reason why there are none. -/
def readContents (name : String) (contents : Except String (List UInt8)) : Except Failure Schema :=
  match contents with
  | .ok bytes => readBytes name bytes
  | .error reason => .error (.cannotOpen name reason)

end ProtoSchema
