/-
Which names are declared, and what a reference to a name means.

The table keeps the first declaration of every name; each later one is reported.  A
relative reference is resolved from the inside outwards.  A single name means the
nearest type of that name.  For a dotted name the nearest scope of the first name is
decisive: the rest must be found within it, even if an outer scope would have it.
-/
import ProtoSchema.Diagnostic
import ProtoSchema.Symbol.Declared

namespace ProtoSchema

/-- What is known about a declared name. -/
structure Definition where
  kind : DefinitionKind
  span : Span
deriving DecidableEq, Repr

/-- The declared names, each with its first declaration. -/
structure SymbolTable where
  entries : List (FullName × Definition)
  /-- The full names of enums, each with the name of one of its values behind it. -/
  enumValues : List FullName
deriving Repr

namespace SymbolTable

def empty : SymbolTable := ⟨[], []⟩

/-- The definition of exactly this name. -/
def find? (t : SymbolTable) (name : FullName) : Option Definition := t.entries.lookup name

/-- A table with one more declaration, and what is wrong with it. -/
def declare (t : SymbolTable) (d : Declared) : SymbolTable × List Diagnostic :=
  let t := { t with enumValues := d.enumValue.toList ++ t.enumValues }
  match t.find? d.name with
  | none => ({ t with entries := (d.name, ⟨d.kind, d.span⟩) :: t.entries }, [])
  | some earlier =>
    if d.kind = .package ∧ earlier.kind = .package then (t, [])
    else (t, [.duplicateName d.name.text earlier.span d.span])

/-- A table with more declarations, and what is wrong with them. -/
def declareAll : SymbolTable → List Declared → SymbolTable × List Diagnostic
  | t, [] => (t, [])
  | t, d :: ds =>
    let (t, found) := t.declare d
    let (t, more) := declareAll t ds
    (t, found ++ more)

/-- The table of a file, and the names it declares twice. -/
def ofFile (file : File) : SymbolTable × List Diagnostic := declareAll empty file.declared

/-! ### Questions -/

/-- What a full name stands for.  A dot at its front is ignored. -/
def kind? (t : SymbolTable) (name : FullName) : Option DefinitionKind :=
  (t.find? name.withoutDot).map Definition.kind

/-- Whether a value belongs to an enum. -/
def isEnumValue (t : SymbolTable) (enum : FullName) (value : String) : Bool :=
  t.enumValues.contains
    (enum.withoutDot.descend ((Text.segments '.' value.toList).map String.ofList))

/-- A full name with its kind, if it stands for a type. -/
def type? (t : SymbolTable) (name : FullName) : Option (FullName × DefinitionKind) :=
  match t.kind? name with
  | some k => if k.isType then some (name, k) else none
  | none => none

/-- The type that a relative reference means, looked for in scopes in turn. -/
def resolveIn (t : SymbolTable) (first : String) (rest : List String) :
    List FullName → Option (FullName × DefinitionKind)
  | [] => none
  | scope :: scopes =>
    let candidate := scope.child first
    match t.kind? candidate, rest with
    | some k, [] => if k.isType then some (candidate, k) else resolveIn t first rest scopes
    | some k, _ :: _ =>
      if k.isScope then t.type? (candidate.descend rest) else resolveIn t first rest scopes
    | none, _ => resolveIn t first rest scopes

/-- The type that a reference within a scope means. -/
def resolve (t : SymbolTable) (scope : FullName) : Reference → Option (FullName × DefinitionKind)
  | .absolute name => t.type? name
  | .relative first rest => t.resolveIn first rest scope.enclosing

end SymbolTable

end ProtoSchema
