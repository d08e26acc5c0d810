/-
Trees whose places can be trusted.

Every node of a tree has a span, and so have some of the words in it that are no nodes of
their own.  `Lies source outer a` says that the node `a` stands within the stretch `outer`
of the source, and that the same holds of all its parts within the span of `a`, at any
depth.  The span of some nodes is not stored but put together from their first and their
last part; then the parts lie within it because they stand in a row (`Row`).

A word also stands in the source as it is written in the tree.  Only a reserved name may be
read from a string literal instead.
-/
import ProtoSchema.Proofs.Scanning.Places
import ProtoSchema.Grammar.File

namespace ProtoSchema

/-- A stretch of the source within another one. -/
structure Span.Within (source : List Char) (s outer : Span) : Prop where
  fits : s.Fits source
  after : outer.start ≤ s.start
  before : s.stop ≤ outer.stop

namespace Span.Within

variable {source : List Char} {a b s : Span}

theorem mono (h : s.Within source a) (hstart : b.start ≤ a.start) (hstop : a.stop ≤ b.stop) :
    s.Within source b :=
  ⟨h.fits, Nat.le_trans hstart h.after, Nat.le_trans h.before hstop⟩

theorem self (h : s.Fits source) : s.Within source s := ⟨h, Nat.le_refl _, Nat.le_refl _⟩

theorem start_le_stop (h : s.Within source a) : a.start ≤ a.stop :=
  Nat.le_trans h.after (Nat.le_trans h.fits.ordered h.before)

theorem start_le {lo hi : Nat} (h : s.Within source ⟨lo, hi⟩) : s.start ≤ hi :=
  Nat.le_trans h.fits.ordered h.before

theorem le_stop {lo hi : Nat} (h : s.Within source ⟨lo, hi⟩) : lo ≤ s.stop :=
  Nat.le_trans h.after h.fits.ordered

/-- From the start of one stretch to the stop of a later one. -/
theorem through {t : Span} (hs : s.Within source a) (ht : t.Within source b)
    (h : a.stop ≤ b.start) : (s.through t).Within source ⟨a.start, b.stop⟩ :=
  ⟨hs.fits.through ht.fits (Nat.le_trans hs.start_le (Nat.le_trans h ht.le_stop)), hs.after,
    ht.before⟩

end Span.Within

/-! ### Nodes -/

/-- A node of a tree: where it stands, and that its parts stand within. -/
class Node (α : Type) where
  span : α → Span
  Nested : List Char → α → Prop

/-- A node that stands within a stretch of the source, with its parts within itself. -/
structure Lies {α : Type} [Node α] (source : List Char) (outer : Span) (a : α) : Prop where
  within : (Node.span a).Within source outer
  nested : Node.Nested source a

section

-- The instance is found by unification, since reserved names are identifiers with one of their own.
variable {α : Type} {inst : Node α} {source : List Char} {a b : Span} {x : α}

theorem Lies.mono (h : Lies source a x) (hstart : b.start ≤ a.start) (hstop : a.stop ≤ b.stop) :
    Lies source b x := ⟨h.within.mono hstart hstop, h.nested⟩

theorem Lies.fits (h : Lies source a x) : (Node.span x).Fits source := h.within.fits

/-- A part of a node that is read from the start of `s` to the stop of `t`. -/
theorem Lies.between {s t : Span} {lo hi : Nat} (h : Lies source ⟨lo, hi⟩ x) (hs : s.start ≤ lo)
    (ht : hi ≤ t.stop) : Lies source (s.through t) x := h.mono hs ht

theorem Lies.self (h : Lies source a x) : Lies source (Node.span x) x :=
  ⟨.self h.within.fits, h.nested⟩

end

/-- Of two nodes the first ends where the second starts, or before. -/
def Precedes {α β : Type} [Node α] [Node β] (a : α) (b : β) : Prop :=
  (Node.span a).stop ≤ (Node.span b).start

/-! ### Nodes in a row -/

/-- Nodes one behind the other, from one offset to another. -/
def Row {α : Type} [Node α] (source : List Char) : (lo hi : Nat) → List α → Prop
  | lo, hi, [] => lo ≤ hi
  | lo, hi, x :: xs => ∃ mid, Lies source ⟨lo, mid⟩ x ∧ Row source mid hi xs

namespace Row

variable {α : Type} [Node α] {source : List Char} {lo mid hi : Nat} {x : α} {xs : List α}

theorem le (h : Row source lo hi xs) : lo ≤ hi := by
  induction xs generalizing lo with
  | nil => exact h
  | cons x xs ih =>
      obtain ⟨mid, hx, hxs⟩ := h
      exact Nat.le_trans hx.within.start_le_stop (ih hxs)

theorem from_earlier (h : lo ≤ mid) (hx : Row source mid hi xs) : Row source lo hi xs := by
  cases xs with
  | nil => exact Nat.le_trans h hx
  | cons x xs =>
      obtain ⟨n, hx, hxs⟩ := hx
      exact ⟨n, hx.mono h (Nat.le_refl _), hxs⟩

/-- Everything in a row lies between its ends. -/
theorem lies (h : Row source lo hi xs) : ∀ x ∈ xs, Lies source ⟨lo, hi⟩ x := by
  induction xs generalizing lo with
  | nil => exact fun x hx => (List.not_mem_nil hx).elim
  | cons y ys ih =>
      obtain ⟨mid, hy, hys⟩ := h
      intro x hx
      rcases List.mem_cons.mp hx with rfl | hx
      · exact hy.mono (Nat.le_refl _) hys.le
      · exact (ih hys x hx).mono hy.within.start_le_stop (Nat.le_refl _)

theorem to_later {hi' : Nat} (h : hi ≤ hi') (hx : Row source lo hi xs) : Row source lo hi' xs := by
  induction xs generalizing lo with
  | nil => exact Nat.le_trans hx h
  | cons x xs ih =>
      obtain ⟨mid, hx, hxs⟩ := hx
      exact ⟨mid, hx, ih hxs⟩

/-- Of two nodes in a row the later one stands behind the earlier one. -/
theorem pairwise (h : Row source lo hi xs) : xs.Pairwise Precedes := by
  induction xs generalizing lo with
  | nil => exact .nil
  | cons x xs ih =>
      obtain ⟨mid, hx, hxs⟩ := h
      exact .cons (fun y hy => Nat.le_trans hx.within.before (hxs.lies y hy).within.after) (ih hxs)

/-- From the start of the first node to the stop of the last one. -/
def hull (x : α) (xs : List α) : Span := (Node.span x).through (Node.span (xs.getLastD x))

/-- Everything in a row lies between its first and its last node. -/
theorem lies_hull (h : Row source lo hi (x :: xs)) :
    ∀ y ∈ x :: xs, Lies source (hull x xs) y := by
  -- On the others: their hull ends where that of the whole row ends.
  induction xs generalizing lo x with
  | nil =>
      obtain ⟨mid, hx, -⟩ := h
      intro y hy
      obtain rfl := List.mem_singleton.mp hy
      exact hx.self
  | cons z zs ih =>
      obtain ⟨mid, hx, hz⟩ := h
      have hall := ih hz
      have hlast : (zs.getLastD z) = ((z :: zs).getLastD x) := by
        cases zs <;> rfl
      have hrest : ∀ y ∈ z :: zs, Lies source ⟨(Node.span z).start, (hull x (z :: zs)).stop⟩ y := by
        intro y hy
        rw [hull, ← hlast]
        exact hall y hy
      have hz' := (hrest z (.head _)).within
      obtain ⟨n, hzn, -⟩ := hz
      have h₁ := hx.within.before
      have h₂ := hzn.within.after
      have h₃ := hx.within.fits.ordered
      have h₄ := hz'.fits.ordered
      have h₅ := hz'.before
      intro y hy
      rcases List.mem_cons.mp hy with rfl | hy
      · refine hx.self.mono (Nat.le_refl _) ?_
        exact Nat.le_trans h₁ (Nat.le_trans h₂ (Nat.le_trans h₄ h₅))
      · refine (hrest y hy).mono ?_ (Nat.le_refl _)
        exact Nat.le_trans h₃ (Nat.le_trans h₁ h₂)

theorem hull_within (h : Row source lo hi (x :: xs)) : (hull x xs).Within source ⟨lo, hi⟩ := by
  have hmem : xs.getLastD x ∈ x :: xs := List.getLastD_mem_cons
  have hall := h.lies_hull
  have hfirst := (h.lies x (.head _)).within
  have hlast := (h.lies _ hmem).within
  refine ⟨hfirst.fits.through hlast.fits ?_, hfirst.after, hlast.before⟩
  exact Nat.le_trans hfirst.fits.ordered (hall x (.head _)).within.before

end Row

/-- The same nodes, of which something more is asked. -/
@[reducible]
def Node.having {α : Type} (inst : Node α) (A : α → Prop) : Node α :=
  ⟨inst.span, fun source a => inst.Nested source a ∧ A a⟩

section

variable {α : Type} {inst : Node α} {A : α → Prop} {source : List Char} {lo hi : Nat} {x : α}
  {xs : List α}

theorem Lies.having (h : Lies source ⟨lo, hi⟩ x) (hA : A x) :
    @Lies α (inst.having A) source ⟨lo, hi⟩ x :=
  @Lies.mk α (inst.having A) _ _ _ h.within ⟨h.nested, hA⟩

theorem Row.of_having (h : @Row α (inst.having A) source lo hi xs) :
    Row source lo hi xs ∧ ∀ x ∈ xs, A x := by
  induction xs generalizing lo with
  | nil => exact ⟨h, fun x hx => (List.not_mem_nil hx).elim⟩
  | cons x xs ih =>
      obtain ⟨mid, hx, hxs⟩ := h
      obtain ⟨hrow, hall⟩ := ih hxs
      obtain ⟨hwithin, hnested, hA⟩ := hx
      exact ⟨⟨mid, ⟨hwithin, hnested⟩, hrow⟩, List.forall_mem_cons.mpr ⟨hA, hall⟩⟩

end

/-! ### Names and values -/

variable {source : List Char}

/-- A word stands in the source as it is written in the tree. -/
def Ident.Spelled (source : List Char) (n : Ident) : Prop :=
  Text.slice source n.span = n.text.toList

instance : Node Ident := ⟨Ident.span, Ident.Spelled⟩

instance : Node DottedName := ⟨DottedName.span, fun source n => ∀ p ∈ n.parts, Lies source n.span p⟩

structure TypeName.Nested (source : List Char) (n : TypeName) : Prop where
  leadingDot : ∀ s ∈ n.leadingDot, s.Within source n.span
  name : Lies source n.span n.name

instance : Node TypeName := ⟨TypeName.span, TypeName.Nested⟩

instance : Node IntLiteral := ⟨IntLiteral.span, fun _ _ => True⟩

/-- A string literal starts where the span starts. -/
def Span.Quoted (source : List Char) (s : Span) : Prop :=
  ∃ bytes t, .token (.string bytes) t ∈ scan source ∧ t.start = s.start

instance : Node StringLiteral := ⟨StringLiteral.span, fun source l => l.span.Quoted source⟩

def OptionValue.Nested (source : List Char) : OptionValue → Prop
  | .ident _ name s => Lies source s name
  | .int _ | .float .. | .string _ | .aggregate .. => True

instance : Node OptionValue := ⟨OptionValue.span, OptionValue.Nested⟩

def OptionNamePart.Nested (source : List Char) : OptionNamePart → Prop
  | .ident name => name.Spelled source
  | .extension name s => Lies source s name

instance : Node OptionNamePart := ⟨OptionNamePart.span, OptionNamePart.Nested⟩

structure OptionSetting.Nested (source : List Char) (o : OptionSetting) : Prop where
  name : o.nameSpan.Within source o.span
  parts : ∀ p ∈ o.parts, Lies source o.nameSpan p
  value : Lies source o.span o.value

instance : Node OptionSetting := ⟨OptionSetting.span, OptionSetting.Nested⟩

instance : Node OptionStatement :=
  ⟨OptionStatement.span, fun source o => Lies source o.span o.setting⟩

instance : Node OptionList :=
  ⟨OptionList.span, fun source l => ∀ o ∈ l.settings, Lies source l.span o⟩

/-! ### Fields -/

/-- The name of a type that is not built in stands at the place of the type. -/
def TypeUse.Nested (source : List Char) (outer : Span) : TypeUse → Prop
  | .scalar _ => True
  | .named n => Lies source outer n

def FieldKind.Nested (source : List Char) : FieldKind → Prop
  | .plain type s => type.Nested source s
  | .map key keySpan value valueSpan s =>
    keySpan.Within source s ∧ key.Nested source keySpan ∧
      valueSpan.Within source s ∧ value.Nested source valueSpan

instance : Node FieldKind := ⟨FieldKind.span, FieldKind.Nested⟩

structure Field.Nested (source : List Char) (f : Field) : Prop where
  label : ∀ l ∈ f.label, l.2.Within source f.span
  kind : Lies source f.span f.kind
  name : Lies source f.span f.name
  number : Lies source f.span f.number
  options : ∀ o ∈ f.options, Lies source f.span o

instance : Node Field := ⟨Field.span, Field.Nested⟩

/-! ### Ranges and reservations -/

def RangeEnd.Nested (source : List Char) (outer : Span) : RangeEnd → Prop
  | .same => True
  | .to n => Lies source outer n
  | .max s => s.Within source outer

structure NumberRange.Nested (source : List Char) (r : NumberRange) : Prop where
  start : Lies source r.span r.start
  stop : r.stop.Nested source r.span

instance : Node NumberRange := ⟨NumberRange.span, NumberRange.Nested⟩

/-- A reserved name is a word, or read from a string literal. -/
@[reducible]
def Ident.reservedNode : Node Ident :=
  ⟨Ident.span, fun source n => n.Spelled source ∨ n.span.Quoted source⟩

def ReservedKind.Nested (source : List Char) (outer : Span) : ReservedKind → Prop
  | .ranges rs => ∀ r ∈ rs, Lies source outer r
  | .names ns => ∀ n ∈ ns, @Lies Ident Ident.reservedNode source outer n

instance : Node Reserved := ⟨Reserved.span, fun source r => r.kind.Nested source r.span⟩

structure Extensions.Nested (source : List Char) (e : Extensions) : Prop where
  ranges : ∀ r ∈ e.ranges, Lies source e.span r
  options : ∀ o ∈ e.options, Lies source e.span o

instance : Node Extensions := ⟨Extensions.span, Extensions.Nested⟩

/-! ### Declarations with a body -/

structure Oneof.Nested (source : List Char) (o : Oneof) : Prop where
  name : Lies source o.span o.name
  options : ∀ p ∈ o.options, Lies source o.span p
  fields : ∀ f ∈ o.fields, Lies source o.span f

instance : Node Oneof := ⟨Oneof.span, Oneof.Nested⟩

structure Extend.Nested (source : List Char) (e : Extend) : Prop where
  extendee : Lies source e.span e.extendee
  fields : ∀ f ∈ e.fields, Lies source e.span f

instance : Node Extend := ⟨Extend.span, Extend.Nested⟩

structure EnumValue.Nested (source : List Char) (v : EnumValue) : Prop where
  name : Lies source v.span v.name
  number : Lies source v.span v.number
  options : ∀ o ∈ v.options, Lies source v.span o

instance : Node EnumValue := ⟨EnumValue.span, EnumValue.Nested⟩

structure Enum.Nested (source : List Char) (e : Enum) : Prop where
  name : Lies source e.span e.name
  options : ∀ o ∈ e.options, Lies source e.span o
  values : ∀ v ∈ e.values, Lies source e.span v
  reserved : ∀ r ∈ e.reserved, Lies source e.span r

instance : Node Enum := ⟨Enum.span, Enum.Nested⟩

structure Method.Nested (source : List Char) (m : Method) : Prop where
  name : Lies source m.span m.name
  input : Lies source m.span m.input
  output : Lies source m.span m.output
  options : ∀ o ∈ m.options, Lies source m.span o
  clientStreaming : ∀ s ∈ m.clientStreaming, s.Within source m.span
  serverStreaming : ∀ s ∈ m.serverStreaming, s.Within source m.span

instance : Node Method := ⟨Method.span, Method.Nested⟩

structure Service.Nested (source : List Char) (s : Service) : Prop where
  name : Lies source s.span s.name
  options : ∀ o ∈ s.options, Lies source s.span o
  methods : ∀ m ∈ s.methods, Lies source s.span m

instance : Node Service := ⟨Service.span, Service.Nested⟩

def MessageItem.span : MessageItem → Span
  | .field f => f.span
  | .oneof o => o.span
  | .message m => m.span
  | .enum e => e.span
  | .extend e => e.span

mutual

def Message.Nested (source : List Char) : Message → Prop
  | ⟨name, items, options, reserved, extensions, span⟩ =>
    Lies source span name ∧ MessageItem.AllLie source span items ∧
      (∀ o ∈ options, Lies source span o) ∧ (∀ r ∈ reserved, Lies source span r) ∧
      ∀ e ∈ extensions, Lies source span e

/-- The items of a message lie within it; they contain messages in turn. -/
def MessageItem.AllLie (source : List Char) (outer : Span) : List MessageItem → Prop
  | [] => True
  | i :: is =>
    (i.span.Within source outer ∧ MessageItem.Nested source i) ∧
      MessageItem.AllLie source outer is

def MessageItem.Nested (source : List Char) : MessageItem → Prop
  | .field f => f.Nested source
  | .oneof o => o.Nested source
  | .message m => Message.Nested source m
  | .enum e => e.Nested source
  | .extend e => e.Nested source

end

instance : Node Message := ⟨Message.span, Message.Nested⟩

instance : Node MessageItem := ⟨MessageItem.span, MessageItem.Nested⟩

theorem MessageItem.allLie_iff (outer : Span) (items : List MessageItem) :
    AllLie source outer items ↔ ∀ i ∈ items, Lies source outer i := by
  induction items with
  | nil => simp [AllLie]
  | cons i is ih =>
      rw [AllLie, ih, List.forall_mem_cons]
      exact and_congr_left' ⟨fun h => ⟨h.1, h.2⟩, fun h => ⟨h.1, h.2⟩⟩

/-! ### Members

The members of a body are parsed into one list before they are gathered by kind. -/

namespace Parser

def OneofMember.span : OneofMember → Span
  | .option o => o.span
  | .field f => f.span

def OneofMember.Nested (source : List Char) : OneofMember → Prop
  | .option o => Node.Nested source o
  | .field f => Node.Nested source f

instance : Node OneofMember := ⟨OneofMember.span, OneofMember.Nested⟩

def EnumMember.span : EnumMember → Span
  | .option o => o.span
  | .reserved r => r.span
  | .value v => v.span

def EnumMember.Nested (source : List Char) : EnumMember → Prop
  | .option o => Node.Nested source o
  | .reserved r => Node.Nested source r
  | .value v => Node.Nested source v

instance : Node EnumMember := ⟨EnumMember.span, EnumMember.Nested⟩

def ServiceMember.span : ServiceMember → Span
  | .option o => o.span
  | .method m => m.span

def ServiceMember.Nested (source : List Char) : ServiceMember → Prop
  | .option o => Node.Nested source o
  | .method m => Node.Nested source m

instance : Node ServiceMember := ⟨ServiceMember.span, ServiceMember.Nested⟩

def MessageMember.span : MessageMember → Span
  | .item i => i.span
  | .option o => o.span
  | .reserved r => r.span
  | .extensions e => e.span

def MessageMember.Nested (source : List Char) : MessageMember → Prop
  | .item i => i.Nested source
  | .option o => Node.Nested source o
  | .reserved r => Node.Nested source r
  | .extensions e => Node.Nested source e

instance : Node MessageMember := ⟨MessageMember.span, MessageMember.Nested⟩

end Parser

/-! ### Files -/

instance : Node Package := ⟨Package.span, fun source p => Lies source p.span p.name⟩

structure Import.Nested (source : List Char) (i : Import) : Prop where
  kind : ∀ k ∈ i.kind, k.2.Within source i.span
  path : i.pathSpan.Within source i.span

instance : Node Import := ⟨Import.span, Import.Nested⟩

def Statement.span : Statement → Span
  | .dialect _ s => s
  | .package p => p.span
  | .dependency i => i.span
  | .option o => o.span
  | .message m => m.span
  | .enum e => e.span
  | .extend e => e.span
  | .service s => s.span

def Statement.Nested (source : List Char) : Statement → Prop
  | .dialect .. => True
  | .package p => Node.Nested source p
  | .dependency i => Node.Nested source i
  | .option o => Node.Nested source o
  | .message m => Node.Nested source m
  | .enum e => Node.Nested source e
  | .extend e => Node.Nested source e
  | .service s => Node.Nested source s

instance : Node Statement := ⟨Statement.span, Statement.Nested⟩

/-- The nodes of a file stand in the source, with their parts within themselves. -/
structure File.LiesIn (source : List Char) (f : File) : Prop where
  dialectSpan : ∀ s ∈ f.dialectSpan, s.Fits source
  package : ∀ p ∈ f.package, Lies source ⟨0, Utf8.size source⟩ p
  imports : ∀ i ∈ f.imports, Lies source ⟨0, Utf8.size source⟩ i
  options : ∀ o ∈ f.options, Lies source ⟨0, Utf8.size source⟩ o
  messages : ∀ m ∈ f.messages, Lies source ⟨0, Utf8.size source⟩ m
  enums : ∀ e ∈ f.enums, Lies source ⟨0, Utf8.size source⟩ e
  extendBlocks : ∀ e ∈ f.extendBlocks, Lies source ⟨0, Utf8.size source⟩ e
  services : ∀ s ∈ f.services, Lies source ⟨0, Utf8.size source⟩ s

end ProtoSchema
