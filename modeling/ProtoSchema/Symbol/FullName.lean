/-
Full names and references to them.

A full name is the chain of names from a declaration out to the outermost scope; the
root is the empty chain.  It is kept with the innermost name first, so the scopes that
enclose it are the tails of its chain.  Its text joins the names by dots, the outermost
one first.  Read back, a dot at the very front belongs to the first name and separates
nothing; the empty text is that of the root.
-/
import ProtoSchema.Text.Slice
import ProtoSchema.Tree.Name

namespace ProtoSchema

/-- A chain of names, the innermost first. -/
structure FullName where
  chain : List String
deriving DecidableEq, Repr, Inhabited

namespace FullName

/-- The name of the outermost scope. -/
def root : FullName := ⟨[]⟩

/-- The full name of a name declared in a scope. -/
def child (scope : FullName) (name : String) : FullName := ⟨name :: scope.chain⟩

/-- The full name that some names, each within the one before, lead to from a scope. -/
def descend (scope : FullName) (names : List String) : FullName := names.foldl child scope

theorem descend_nil (scope : FullName) : scope.descend [] = scope := rfl

theorem descend_cons (scope : FullName) (name : String) (names : List String) :
    scope.descend (name :: names) = (scope.child name).descend names := rfl

theorem chain_descend (scope : FullName) (names : List String) :
    (scope.descend names).chain = names.reverse ++ scope.chain := by
  induction names generalizing scope with
  | nil => rfl
  | cons n ns ih => rw [descend_cons, ih]; simp [child]

/-- The names from the outermost scope inwards. -/
def names (n : FullName) : List String := n.chain.reverse

theorem names_descend_root (names : List String) : (root.descend names).names = names := by
  rw [FullName.names, chain_descend]
  simp [root]

def text (n : FullName) : String := String.intercalate "." n.names

/-- The full name that a text spells. -/
def ofText (text : String) : FullName :=
  match text.toList with
  | [] => root
  | c :: cs =>
    match Text.segments '.' cs with
    | s :: ss => root.descend ((c :: s) :: ss |>.map String.ofList)
    | [] => root.child (String.ofList [c])

/-- The full names of a chain and of its tails, the whole chain first and the root last. -/
def enclosingFrom : List String → List FullName
  | [] => [root]
  | n :: ns => ⟨n :: ns⟩ :: enclosingFrom ns

/-- The scope and all that enclose it, from the inside to the root. -/
def enclosing (scope : FullName) : List FullName := enclosingFrom scope.chain

theorem mem_enclosing_iff {scope p : FullName} :
    p ∈ scope.enclosing ↔ p.chain <:+ scope.chain := by
  obtain ⟨ns⟩ := scope
  obtain ⟨ps⟩ := p
  simp only [enclosing]
  induction ns with
  | nil => simp [enclosingFrom, root]
  | cons n ns ih => simp [enclosingFrom, List.suffix_cons_iff, ih]

/-- A text without a dot at its front. -/
def dropDot (text : String) : String :=
  match text.toList with
  | '.' :: cs => String.ofList cs
  | _ => text

/-- A chain whose outermost name has no dot at its front. -/
def chainWithoutDot : List String → List String
  | [] => []
  | [outermost] => [dropDot outermost]
  | n :: ns => n :: chainWithoutDot ns

/-- The full name without a dot at the front of its text.  A dot alone leaves the root. -/
def withoutDot (n : FullName) : FullName :=
  if n.chain = ["."] then root else ⟨chainWithoutDot n.chain⟩

end FullName

/-- A name as a declaration refers to it. -/
inductive Reference where
  /-- A name from the root. -/
  | absolute (name : FullName)
  /-- A chain of names that starts in the scope of the reference or around it. -/
  | relative (first : String) (rest : List String)
deriving DecidableEq, Repr

/-- The reference that a text spells; a dot at its front makes it absolute. -/
def Reference.ofText (text : String) : Reference :=
  match text.toList with
  | '.' :: cs => .absolute (.ofText (String.ofList cs))
  | cs =>
    match (Text.segments '.' cs).map String.ofList with
    | first :: rest => .relative first rest
    | [] => .relative "" []

/-- The reference that the name of a type makes. -/
def TypeName.reference (n : TypeName) : Reference :=
  match n.leadingDot with
  | some _ => .absolute (FullName.root.descend n.name.words)
  | none => .relative n.name.first.text (n.name.rest.map Ident.text)

end ProtoSchema
