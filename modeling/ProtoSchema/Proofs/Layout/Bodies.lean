/-
The bodies of a tree.

A tree does not keep its braces.  What it keeps of a declaration with a body is where the
declaration stands and where its members stand, and `BodyNode` holds just that.  The members
are listed kind by kind, as the tree has them, and the parser reads them in another order; but
nothing is lost by the sorting, so for every kind of body the one list is a permutation of the
other (`Message.perm_members` is the longest case), and so are the statements of a file.
-/
import ProtoSchema.Proofs.Positions.Nodes
import ProtoSchema.Proofs.Recovery.Skipped

namespace ProtoSchema

open ProtoSchema.Parser (OneofMember EnumMember ServiceMember MessageMember)

/-- A declaration that has a body: its kind, where it stands, and where its members stand. -/
structure BodyNode where
  kind : BodyKind
  span : Span
  members : List Span
deriving DecidableEq, Repr

/-! ### The bodies of a declaration -/

def Oneof.bodies (o : Oneof) : List BodyNode := [⟨.oneof, o.span, o.members.map OneofMember.span⟩]

def Extend.bodies (e : Extend) : List BodyNode := [⟨.extend, e.span, e.fields.map Field.span⟩]

def Enum.bodies (e : Enum) : List BodyNode := [⟨.enum, e.span, e.members.map EnumMember.span⟩]

def Method.bodies (m : Method) : List BodyNode :=
  [⟨.method, m.span, m.options.map OptionStatement.span⟩]

def Service.bodies (s : Service) : List BodyNode :=
  ⟨.service, s.span, s.members.map ServiceMember.span⟩ :: s.methods.flatMap Method.bodies

mutual

/-- The body of a message, and those within it at any depth. -/
def Message.bodies : Message → List BodyNode
  | ⟨name, items, options, reserved, extensions, span⟩ =>
    ⟨.message, span,
      (Message.mk name items options reserved extensions span).members.map MessageMember.span⟩ ::
      MessageItem.bodiesAll items

def MessageItem.bodiesAll : List MessageItem → List BodyNode
  | [] => []
  | i :: is => MessageItem.bodies i ++ MessageItem.bodiesAll is

def MessageItem.bodies : MessageItem → List BodyNode
  | .field _ => []
  | .oneof o => o.bodies
  | .message m => Message.bodies m
  | .enum e => e.bodies
  | .extend e => e.bodies

end

theorem MessageItem.bodiesAll_eq (items : List MessageItem) :
    bodiesAll items = items.flatMap bodies := by
  induction items with
  | nil => rfl
  | cons i is ih => rw [bodiesAll, ih, List.flatMap_cons]

theorem Message.bodies_eq (m : Message) :
    m.bodies = ⟨.message, m.span, m.members.map MessageMember.span⟩ ::
      m.items.flatMap MessageItem.bodies := by
  obtain ⟨name, items, options, reserved, extensions, span⟩ := m
  rw [bodies, MessageItem.bodiesAll_eq]

def Statement.bodies : Statement → List BodyNode
  | .message m => m.bodies
  | .enum e => e.bodies
  | .extend e => e.bodies
  | .service s => s.bodies
  | _ => []

/-- All bodies of a file. -/
def File.bodies (f : File) : List BodyNode := f.statements.flatMap Statement.bodies

/-- Where the statements of a file stand. -/
def File.spans (f : File) : List Span := f.dialectSpan.toList ++ f.statements.map Statement.span

/-! ### Members -/

def Parser.ServiceMember.bodies : ServiceMember → List BodyNode
  | .option _ => []
  | .method m => m.bodies

def Parser.MessageMember.bodies : MessageMember → List BodyNode
  | .item i => i.bodies
  | _ => []

namespace BodyKind

/-- Where a member of a body stands. -/
def span : (k : BodyKind) → k.Member → Span
  | .message => MessageMember.span
  | .oneof => OneofMember.span
  | .extend => Field.span
  | .enum => EnumMember.span
  | .service => ServiceMember.span
  | .method => OptionStatement.span

/-- The bodies that belong to a member of a body. -/
def bodies : (k : BodyKind) → k.Member → List BodyNode
  | .message => MessageMember.bodies
  | .service => ServiceMember.bodies
  | .oneof | .extend | .enum | .method => fun _ => []

end BodyKind

/-! ### Sorting by kind -/

theorem Oneof.perm_members (name : Ident) (ms : List OneofMember) (s : Span) :
    (Oneof.mk name (ms.filterMap OneofMember.option?)
      (ms.filterMap OneofMember.field?) s).members.Perm ms := by
  induction ms with
  | nil => exact .refl _
  | cons m ms ih =>
      cases m with
      | option o => exact ih.cons _
      | field f => exact List.perm_middle.trans (ih.cons _)

theorem Enum.perm_members (name : Ident) (ms : List EnumMember) (s : Span) :
    (Enum.mk name (ms.filterMap EnumMember.option?) (ms.filterMap EnumMember.value?)
      (ms.filterMap EnumMember.reserved?) s).members.Perm ms := by
  induction ms with
  | nil => exact .refl _
  | cons m ms ih =>
      cases m with
      | option o => exact ih.cons _
      | value v => exact (List.perm_middle.append_right _).trans (ih.cons _)
      | reserved r => exact List.perm_middle.trans (ih.cons _)

theorem Service.perm_members (name : Ident) (ms : List ServiceMember) (s : Span) :
    (Service.mk name (ms.filterMap ServiceMember.option?) (ms.filterMap ServiceMember.method?)
      s).members.Perm ms := by
  induction ms with
  | nil => exact .refl _
  | cons m ms ih =>
      cases m with
      | option o => exact ih.cons _
      | method m => exact List.perm_middle.trans (ih.cons _)

theorem Message.perm_members (name : Ident) (ms : List MessageMember) (s : Span) :
    (Message.mk name (ms.filterMap MessageMember.item?) (ms.filterMap MessageMember.option?)
      (ms.filterMap MessageMember.reserved?) (ms.filterMap MessageMember.extensions?)
      s).members.Perm ms := by
  induction ms with
  | nil => exact .refl _
  | cons m ms ih =>
      cases m with
      | item i => exact ih.cons _
      | option o => exact ((List.perm_middle.append_right _).append_right _).trans (ih.cons _)
      | reserved r => exact (List.perm_middle.append_right _).trans (ih.cons _)
      | extensions e => exact List.perm_middle.trans (ih.cons _)

/-- Only methods bring bodies into a service. -/
theorem Service.flatMap_bodies (ms : List ServiceMember) :
    (ms.filterMap ServiceMember.method?).flatMap Method.bodies =
      ms.flatMap ServiceMember.bodies := by
  induction ms with
  | nil => rfl
  | cons m ms ih =>
      cases m with
      | option o => exact ih
      | method m => exact congrArg (m.bodies ++ ·) ih

/-- Only items bring bodies into a message. -/
theorem Message.flatMap_bodies (ms : List MessageMember) :
    (ms.filterMap MessageMember.item?).flatMap MessageItem.bodies =
      ms.flatMap MessageMember.bodies := by
  induction ms with
  | nil => rfl
  | cons m ms ih =>
      cases m with
      | item i => exact congrArg (i.bodies ++ ·) ih
      | option o => exact ih
      | reserved r => exact ih
      | extensions e => exact ih

/-! ### Statements -/

variable {f : File} {first : Bool} {st : Statement}

theorem perm_snoc {α : Type} (as bs : List α) (x : α) :
    (as ++ (bs ++ [x])).Perm (x :: (as ++ bs)) := by
  rw [← List.append_assoc]
  exact List.perm_append_singleton x (as ++ bs)

/-- A statement that there is nothing to report about is put among those of its kind. -/
theorem File.perm_statements_place (h : (f.place first st).2 = []) (hst : st.isDialect = false) :
    (f.place first st).1.statements.Perm (st :: f.statements) := by
  obtain ⟨dialect, chosen, package, imports, options, messages, enums, extendBlocks, services⟩ := f
  cases st with
  | dialect choice span => cases hst
  | package p =>
      cases package with
      | some earlier => cases h
      | none => exact .refl _
  | dependency i =>
      simp only [place, statements, List.map_append]
      exact (((((perm_snoc _ _ _).append_right _).append_right _).append_right _).append_right
        _).append_right _
  | option o =>
      simp only [place, statements, List.map_append]
      exact ((((perm_snoc _ _ _).append_right _).append_right _).append_right _).append_right _
  | message m =>
      simp only [place, statements, List.map_append]
      exact (((perm_snoc _ _ _).append_right _).append_right _).append_right _
  | enum e =>
      simp only [place, statements, List.map_append]
      exact ((perm_snoc _ _ _).append_right _).append_right _
  | extend e =>
      simp only [place, statements, List.map_append]
      exact (perm_snoc _ _ _).append_right _
  | service s =>
      simp only [place, statements, List.map_append]
      exact perm_snoc _ _ _

/-- A statement of the dialect that there is nothing to report about is the only one. -/
theorem File.place_dialect {choice : Option Dialect} {span : Span}
    (h : (f.place first (.dialect choice span)).2 = []) :
    f.dialectSpan = none ∧ (f.place first (.dialect choice span)).1 =
      { f with dialectSpan := some span, dialect := choice.getD f.dialect } := by
  obtain ⟨dialect, chosen, package, imports, options, messages, enums, extendBlocks, services⟩ := f
  cases chosen with
  | some earlier => cases h
  | none =>
      cases first with
      | false => cases h
      | true => exact ⟨rfl, rfl⟩

theorem File.dialectSpan_place (hst : st.isDialect = false) :
    (f.place first st).1.dialectSpan = f.dialectSpan := by
  cases st with
  | dialect choice span => cases hst
  | package p =>
      unfold place
      dsimp only
      split
      · rfl
      · rfl
  | _ => rfl

/-- A statement that there is nothing to report about adds its place to those of the file. -/
theorem File.perm_spans_place (h : (f.place first st).2 = []) :
    (f.place first st).1.spans.Perm (st.span :: f.spans) := by
  by_cases hst : st.isDialect = false
  · rw [spans, spans, dialectSpan_place hst]
    exact (((perm_statements_place h hst).map Statement.span).append_left _).trans List.perm_middle
  · cases st with
    | dialect choice span =>
        obtain ⟨hnone, hplace⟩ := place_dialect h
        rw [spans, spans, hplace, hnone]
        exact .refl _
    | _ => exact absurd rfl hst

/-- A statement that there is nothing to report about adds its bodies to those of the file. -/
theorem File.mem_bodies_place (h : (f.place first st).2 = []) (b : BodyNode) :
    b ∈ (f.place first st).1.bodies ↔ b ∈ st.bodies ∨ b ∈ f.bodies := by
  by_cases hst : st.isDialect = false
  · rw [bodies, ((perm_statements_place h hst).flatMap_right _).mem_iff, List.flatMap_cons,
      List.mem_append, bodies]
  · cases st with
    | dialect choice span =>
        rw [bodies, (place_dialect h).2]
        exact (or_iff_right List.not_mem_nil).symm
    | _ => exact absurd rfl hst

end ProtoSchema
