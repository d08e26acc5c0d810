/-
Resolving the types that declarations refer to.

A file is checked without the files it imports.  So if it imports anything, a name that
it does not declare is taken to be declared elsewhere, and kept as it was written.
-/
import ProtoSchema.Assembly.Checked
import ProtoSchema.Descriptor.Basic
import ProtoSchema.Symbol.Table

namespace ProtoSchema

open Checked

/-- What checking a declaration needs to know about its file. -/
structure Context where
  dialect : Dialect
  symbols : SymbolTable
  hasImports : Bool

namespace Context

/-- The declared type that a name in a scope means; a name without one is reported. -/
def resolve (ctx : Context) (scope : FullName) (n : TypeName) :
    Checked (Option (FullName × DefinitionKind)) := do
  match ctx.symbols.resolve scope n.reference with
  | some found => pure (some found)
  | none => do
    reportIf (!ctx.hasImports) (.unresolvedType n.text n.span)
    pure none

/-- The type of a field. -/
def fieldType (ctx : Context) (scope : FullName) : TypeUse → Checked FieldType
  | .scalar s => pure (.scalar s)
  | .named n => do
    match ← ctx.resolve scope n with
    | some (name, .enum) => pure (.enum name)
    | some (name, _) => pure (.message name)
    | none => pure (.unknown n)

/-- A type that must be a message. -/
def messageType (ctx : Context) (scope : FullName) (n : TypeName) : Checked TypeRef := do
  match ← ctx.resolve scope n with
  | some (name, kind) => do
    reportIf (kind = .enum) (.invalidMessageType n.text n.span)
    pure (.resolved name)
  | none => pure (.written n)

end Context

end ProtoSchema
