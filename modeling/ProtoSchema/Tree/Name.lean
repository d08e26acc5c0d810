/-
Names as they are written.
-/
import ProtoSchema.Span

namespace ProtoSchema

/-- A single word, or the text of a string that stands for one. -/
structure Ident where
  text : String
  span : Span
deriving DecidableEq, Repr, Inhabited

/-- Words joined by dots; there is at least one. -/
structure DottedName where
  first : Ident
  rest : List Ident
deriving DecidableEq, Repr, Inhabited

namespace DottedName

def parts (n : DottedName) : List Ident := n.first :: n.rest

/-- The words, without their places. -/
def words (n : DottedName) : List String := n.parts.map Ident.text

/-- The last word. -/
def last (n : DottedName) : Ident := n.rest.getLastD n.first

def span (n : DottedName) : Span := n.first.span.through n.last.span

def text (n : DottedName) : String := String.intercalate "." n.words

end DottedName

/-- The name of a type; a dot in front makes it absolute. -/
structure TypeName where
  leadingDot : Option Span
  name : DottedName
deriving DecidableEq, Repr, Inhabited

namespace TypeName

def span (n : TypeName) : Span :=
  match n.leadingDot with
  | some dot => dot.through n.name.span
  | none => n.name.span

def text (n : TypeName) : String :=
  (if n.leadingDot.isSome then "." else "") ++ n.name.text

end TypeName

end ProtoSchema
