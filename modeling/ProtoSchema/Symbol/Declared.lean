/-
The names that a file declares.

One walk over the tree lists every declaration with its full name, in the order in
which it claims that name.  A package claims the packages around it as well.  Values of an enum
live beside the enum, not within it, and fields of a oneof beside the oneof.  A map
field declares, next to itself, the message that holds its entries.
-/
import ProtoSchema.Name.Case
import ProtoSchema.Symbol.FullName
import ProtoSchema.Tree.File

namespace ProtoSchema

/-- The kind of thing that a name stands for. -/
inductive DefinitionKind where
  | package | message | enum | enumValue | oneof | field | extension | service | method
deriving DecidableEq, Repr

namespace DefinitionKind

/-- Whether names can be declared within such a thing. -/
def isScope : DefinitionKind → Bool
  | package | message | enum | service => true
  | _ => false

/-- Whether fields can be of such a type. -/
def isType : DefinitionKind → Bool
  | message | enum => true
  | _ => false

end DefinitionKind

/-- A full name that something claims. -/
structure Declared where
  name : FullName
  kind : DefinitionKind
  span : Span
  /-- For a value of an enum, the name of the enum with the name of the value behind it. -/
  enumValue : Option FullName
deriving DecidableEq, Repr

namespace Declared

/-- A name declared in a scope by a word. -/
def within (scope : FullName) (name : Ident) (kind : DefinitionKind) : Declared :=
  ⟨scope.child name.text, kind, name.span, none⟩

end Declared

/-! ### The walk -/

/-- The packages that some names declare in a scope, each within the one before. -/
def packagesFrom (span : Span) : (scope : FullName) → List String → List Declared
  | _, [] => []
  | scope, n :: ns =>
    ⟨scope.child n, .package, span, none⟩ :: packagesFrom span (scope.child n) ns

/-- A package and all that enclose it, at the place of the whole name. -/
def Package.declared (p : Package) : List Declared := packagesFrom p.name.span .root p.name.words

/-- The scope of the declarations of a file. -/
def Package.scope (p : Option Package) : FullName :=
  match p with
  | some p => FullName.root.descend p.name.words
  | none => .root

/-- A field of a message, and the message that holds its entries. -/
def Field.declared (scope : FullName) (f : Field) : List Declared :=
  .within scope f.name .field ::
    (if f.kind.isMap then
      [⟨scope.child (mapEntryName f.name.text), .message, f.name.span, none⟩]
    else [])

def Oneof.declared (scope : FullName) (o : Oneof) : List Declared :=
  .within scope o.name .oneof :: o.fields.flatMap (Field.declared scope)

def Enum.declared (scope : FullName) (e : Enum) : List Declared :=
  .within scope e.name .enum ::
    e.values.map fun v =>
      { Declared.within scope v.name .enumValue with
        enumValue := some ((scope.child e.name.text).child v.name.text) }

def Extend.declared (scope : FullName) (e : Extend) : List Declared :=
  e.fields.map fun f => .within scope f.name .extension

def Service.declared (scope : FullName) (s : Service) : List Declared :=
  .within scope s.name .service ::
    s.methods.map fun m => .within (scope.child s.name.text) m.name .method

mutual

def Message.declared (scope : FullName) : Message → List Declared
  | ⟨name, items, _, _, _, _⟩ =>
    .within scope name .message :: MessageItem.declaredAll (scope.child name.text) items

/-- What the items of a message declare, in a scope which is that of the message. -/
def MessageItem.declaredAll (scope : FullName) : List MessageItem → List Declared
  | [] => []
  | i :: is => MessageItem.declared scope i ++ MessageItem.declaredAll scope is

def MessageItem.declared (scope : FullName) : MessageItem → List Declared
  | .field f => f.declared scope
  | .oneof o => o.declared scope
  | .message m => Message.declared scope m
  | .enum e => e.declared scope
  | .extend e => e.declared scope

end

/-- Everything that a file declares, kind by kind. -/
def File.declared (file : File) : List Declared :=
  let scope := Package.scope file.package
  file.package.toList.flatMap Package.declared
    ++ file.messages.flatMap (Message.declared scope)
    ++ file.enums.flatMap (Enum.declared scope)
    ++ file.extendBlocks.flatMap (Extend.declared scope)
    ++ file.services.flatMap (Service.declared scope)

end ProtoSchema
