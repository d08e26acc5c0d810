/-
Names, numbers and strings in the grammar.
-/
import ProtoSchema.Grammar.Parser
import ProtoSchema.Tree.Value

namespace ProtoSchema

namespace Parser

/-! ### Names -/

/-- A word. -/
def ident : Parser Ident :=
  require .identifier fun
    | .ident text, s => some ⟨text, s⟩
    | _, _ => none

/-- Words joined by dots, up to what ends the name; that is left where it is. -/
def dottedName (stop : Terminator) : Parser DottedName := do
  let first ← ident
  let rest ← many do
    match ← acceptMark? .dot with
    | some _ => do
      let word ← ident
      pure (.yield word)
    | none => do
      match ← peek with
      | some t => if stop.admits t then pure .stop else unexpected (.nameEnd stop)
      | none => unexpected (.nameEnd stop)
  pure ⟨first, rest⟩

/-- The name of a type. -/
def typeName (stop : Terminator) : Parser TypeName := do
  match ← peek with
  | some (.mark .dot) => do
    let dot ← expectMark .dot
    let name ← dottedName stop
    pure ⟨some dot, name⟩
  | some (.ident _) => do
    let name ← dottedName stop
    pure ⟨none, name⟩
  | _ => unexpected .typeName

/-! ### Literals -/

/-- An integer with an optional minus sign. -/
def integer : Parser IntLiteral := do
  let minus ← acceptMark? .minus
  let (n, s) ← require .integer fun
    | .int n, s => some (n, s)
    | _, _ => none
  match minus with
  | some m => pure ⟨true, n, m.through s⟩
  | none => pure ⟨false, n, s⟩

/-- One string literal. -/
def quoted? : Token → Span → Option StringLiteral
  | .string bytes, s => some ⟨bytes, s⟩
  | _, _ => none

/-- String literals in a row, which make one string. -/
def stringLiteral : Parser StringLiteral := do
  let first ← require .string quoted?
  let rest ← many do
    match ← accept? quoted? with
    | some s => pure (.yield s)
    | none => pure .stop
  pure ⟨first.bytes ++ rest.flatMap StringLiteral.bytes,
    first.span.through (rest.getLastD first).span⟩

/-- A string of characters.  Bytes that are no UTF-8 are reported and replaced. -/
def textLiteral : Parser Ident := do
  let s ← stringLiteral
  match Utf8.decode? s.bytes with
  | some text => pure ⟨String.ofList text, s.span⟩
  | none => do
    report (.invalidUtf8String s.span)
    pure ⟨String.ofList (Utf8.decodeLossy s.bytes), s.span⟩

end Parser

end ProtoSchema
