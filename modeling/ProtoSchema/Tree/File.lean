/-
A whole file as it is written.
-/
import ProtoSchema.Tree.Declaration

namespace ProtoSchema

/-- The version of the language that a file is written in. -/
inductive Dialect where
  | proto2 | proto3
deriving DecidableEq, Repr, Inhabited

def Dialect.text : Dialect → String
  | .proto2 => "proto2"
  | .proto3 => "proto3"

structure Package where
  name : DottedName
  span : Span
deriving DecidableEq, Repr

inductive ImportKind where
  | weakImport | publicImport
deriving DecidableEq, Repr

structure Import where
  kind : Option (ImportKind × Span)
  path : String
  pathSpan : Span
  span : Span
deriving DecidableEq, Repr

/-- A syntax tree.  The statements of a file are gathered by kind, each kind in order. -/
structure File where
  dialect : Dialect
  /-- The place of the statement that chose the dialect. -/
  dialectSpan : Option Span
  package : Option Package
  imports : List Import
  options : List OptionStatement
  messages : List Message
  enums : List Enum
  extendBlocks : List Extend
  services : List Service

/-- The file that says nothing; without a statement about it the dialect is the older one. -/
def File.empty : File := ⟨.proto2, none, none, [], [], [], [], [], []⟩

end ProtoSchema
