/-
Declarations with a body read back.

A body is a sequence of members of several kinds, and a node keeps the members of each kind
in a list of their own.  The printer puts the lists one behind the other.  So the members
that are parsed are, but for places, the members of the first list, then those of the
second, and so on, and gathering them by kind gives the lists back.

Messages are nested, and the induction is on how deep the rule for messages may go; the size
of a message is deep enough.
-/
import Mathlib.Data.List.Basic
import ProtoSchema.Proofs.Rendering.Fields

namespace ProtoSchema

open ProtoSchema.Parser (OneofMember EnumMember ServiceMember MessageMember)

/-! ### Members -/

/-- What is gathered from members depends on the members without their places only. -/
theorem gather_eq {M α : Type} {bareMember : M → M} (bare : α → α) (get? : M → Option α)
    (hget : ∀ m, (get? m).map bare = get? (bareMember m)) {ms xs : List M}
    (h : ms.map bareMember = xs.map bareMember) :
    (ms.filterMap get?).map bare = (xs.filterMap get?).map bare := by
  have hg (ms : List M) : (ms.filterMap get?).map bare = (ms.map bareMember).filterMap get? := by
    rw [List.map_filterMap, List.filterMap_map]
    exact congrArg (ms.filterMap ·) (funext hget)
  rw [hg, hg, h]

namespace Parser

def OneofMember.pieces : OneofMember → List Piece
  | option o => o.pieces
  | field f => f.pieces

def OneofMember.bare : OneofMember → OneofMember
  | option o => .option o.bare
  | field f => .field f.bare

def EnumMember.pieces : EnumMember → List Piece
  | option o => o.pieces
  | reserved r => r.pieces
  | value v => v.pieces

def EnumMember.bare : EnumMember → EnumMember
  | option o => .option o.bare
  | reserved r => .reserved r.bare
  | value v => .value v.bare

def ServiceMember.pieces : ServiceMember → List Piece
  | option o => o.pieces
  | method m => m.pieces

def ServiceMember.bare : ServiceMember → ServiceMember
  | option o => .option o.bare
  | method m => .method m.bare

def MessageMember.pieces : MessageMember → List Piece
  | item i => i.pieces
  | option o => o.pieces
  | reserved r => r.pieces
  | extensions e => e.pieces

def MessageMember.bare : MessageMember → MessageMember
  | item i => .item i.bare
  | option o => .option o.bare
  | reserved r => .reserved r.bare
  | extensions e => .extensions e.bare

end Parser

/-! ### Members in the order in which they are printed -/

def Oneof.members (o : Oneof) : List OneofMember := o.options.map .option ++ o.fields.map .field

def Enum.members (e : Enum) : List EnumMember :=
  e.options.map .option ++ e.values.map .value ++ e.reserved.map .reserved

def Service.members (s : Service) : List ServiceMember :=
  s.options.map .option ++ s.methods.map .method

def Message.members (m : Message) : List MessageMember :=
  m.items.map .item ++ m.options.map .option ++ m.reserved.map .reserved ++
    m.extensions.map .extensions

theorem Oneof.gather_members (o : Oneof) :
    o.members.filterMap OneofMember.option? = o.options ∧
      o.members.filterMap OneofMember.field? = o.fields := by
  simp [members, Function.comp_def, OneofMember.option?, OneofMember.field?]

theorem Enum.gather_members (e : Enum) :
    e.members.filterMap EnumMember.option? = e.options ∧
      e.members.filterMap EnumMember.value? = e.values ∧
      e.members.filterMap EnumMember.reserved? = e.reserved := by
  simp [members, Function.comp_def, EnumMember.option?, EnumMember.value?, EnumMember.reserved?]

theorem Service.gather_members (s : Service) :
    s.members.filterMap ServiceMember.option? = s.options ∧
      s.members.filterMap ServiceMember.method? = s.methods := by
  simp [members, Function.comp_def, ServiceMember.option?, ServiceMember.method?]

theorem Message.gather_members (m : Message) :
    m.members.filterMap MessageMember.item? = m.items ∧
      m.members.filterMap MessageMember.option? = m.options ∧
      m.members.filterMap MessageMember.reserved? = m.reserved ∧
      m.members.filterMap MessageMember.extensions? = m.extensions := by
  simp [members, Function.comp_def, MessageMember.item?, MessageMember.option?,
    MessageMember.reserved?, MessageMember.extensions?]

namespace Prints

/-! ### Oneofs and extensions -/

theorem oneofMember {o : Oneof} (ho : ∀ x ∈ o.options, x.isLegal = true)
    (hf : ∀ x ∈ o.fields, x.isLegal [.kwOption] = true) :
    ∀ m ∈ o.members, Prints Rule.oneofMember m.pieces fun a => a.bare = m.bare := by
  intro m hm
  rcases List.mem_append.mp hm with hm | hm
  · obtain ⟨x, hx, rfl⟩ := List.mem_map.mp hm
    exact switch_keyword (.head _) ((optionStatement (ho x hx)).map fun _ ha =>
      congrArg OneofMember.option ha)
  · obtain ⟨x, hx, rfl⟩ := List.mem_map.mp hm
    exact switch_other x.first?_pieces (Field.start_ne (hf x hx) (by decide))
      ((field (hf x hx)).map fun _ ha => congrArg OneofMember.field ha)

theorem oneof {o : Oneof} (h : o.isLegal = true) :
    Prints Rule.oneof o.pieces fun a => a.bare = o.bare := by
  unfold Oneof.isLegal at h
  simp only [Bool.and_eq_true, List.all_eq_true] at h
  obtain ⟨⟨hn, ho⟩, hf⟩ := h
  have hbody : Piece.body (o.options.flatMap OptionStatement.pieces ++
      o.fields.flatMap Field.pieces) = Piece.body (o.members.flatMap OneofMember.pieces) := by
    simp only [Oneof.members, List.flatMap_append, List.flatMap_map]
    rfl
  unfold Oneof.pieces
  rw [hbody]
  refine cons (keyword .kwOneof) fun _ _ => cons (ident hn) fun name hname =>
    (body o.members (oneofMember ho hf)).last ?_
  rintro ⟨members, stop⟩ hm
  have hoptions := gather_eq OptionStatement.bare OneofMember.option? (fun m => by cases m <;> rfl) hm
  have hfields := gather_eq Field.bare OneofMember.field? (fun m => by cases m <;> rfl) hm
  rw [o.gather_members.1] at hoptions
  rw [o.gather_members.2] at hfields
  show Oneof.mk name.bare ((members.filterMap OneofMember.option?).map OptionStatement.bare)
    ((members.filterMap OneofMember.field?).map Field.bare) default = _
  rw [hname, hoptions, hfields]
  rfl

theorem extend {e : Extend} (h : e.isLegal = true) :
    Prints Rule.extend e.pieces fun a => a.bare = e.bare := by
  obtain ⟨he, hf⟩ := Bool.and_eq_true_iff.mp h
  refine cons (keyword .kwExtend) fun _ _ => (typeName he).bind fun extendee hextendee =>
    (body e.fields fun x hx => field (List.all_eq_true.mp hf x hx)).last ?_
  rintro ⟨fields, stop⟩ hfields
  exact congrArg₂ (Extend.mk · · default) hextendee hfields

/-! ### Enums -/

theorem enumValue {v : EnumValue} (h : v.isLegal = true) :
    Prints Rule.enumValue v.pieces fun a => a.bare = v.bare := by
  unfold EnumValue.isLegal at h
  simp only [Bool.and_eq_true] at h
  obtain ⟨⟨hn, ho⟩, -⟩ := h
  unfold EnumValue.pieces
  rw [List.append_assoc, List.append_assoc]
  refine cons (ident hn) fun name hname => cons (mark .equals) fun _ _ =>
    (integer v.number).bind fun number hnumber => (optionList? ho).bind fun options hoptions =>
      (mark .semicolon).last fun _ _ => ?_
  show EnumValue.mk name.bare number.bare (options.map OptionList.bare) default = _
  rw [hname, hnumber, hoptions]
  rfl

theorem enumMember {e : Enum} (ho : ∀ x ∈ e.options, x.isLegal = true)
    (hv : ∀ x ∈ e.values, x.isLegal = true) (hr : ∀ x ∈ e.reserved, x.isLegal = true) :
    ∀ m ∈ e.members, Prints Rule.enumMember m.pieces fun a => a.bare = m.bare := by
  intro m hm
  rcases List.mem_append.mp hm with hm | hm
  · rcases List.mem_append.mp hm with hm | hm
    · obtain ⟨x, hx, rfl⟩ := List.mem_map.mp hm
      exact switch_keyword (.head _) ((optionStatement (ho x hx)).map fun _ ha =>
        congrArg EnumMember.option ha)
    · obtain ⟨x, hx, rfl⟩ := List.mem_map.mp hm
      refine switch_other (t := .ident x.name.text) rfl ?_
        ((enumValue (hv x hx)).map fun _ ha => congrArg EnumMember.value ha)
      obtain ⟨-, hk⟩ := Bool.and_eq_true_iff.mp (hv x hx)
      intro k hmem heq
      exact of_decide_eq_true (List.all_eq_true.mp hk k hmem) (Token.ident.inj heq).symm
  · obtain ⟨x, hx, rfl⟩ := List.mem_map.mp hm
    exact switch_keyword (.tail _ (.head _)) ((reservedStatement (hr x hx)).map fun _ ha =>
      congrArg EnumMember.reserved ha)

theorem enum {e : Enum} (h : e.isLegal = true) :
    Prints Rule.enum e.pieces fun a => a.bare = e.bare := by
  unfold Enum.isLegal at h
  simp only [Bool.and_eq_true, List.all_eq_true] at h
  obtain ⟨⟨⟨hn, ho⟩, hv⟩, hr⟩ := h
  have hbody : Piece.body (e.options.flatMap OptionStatement.pieces ++
      e.values.flatMap EnumValue.pieces ++ e.reserved.flatMap Reserved.pieces) =
        Piece.body (e.members.flatMap EnumMember.pieces) := by
    simp only [Enum.members, List.flatMap_append, List.flatMap_map]
    rfl
  unfold Enum.pieces
  rw [hbody]
  refine cons (keyword .kwEnum) fun _ _ => cons (ident hn) fun name hname =>
    (body e.members (enumMember ho hv hr)).last ?_
  rintro ⟨members, stop⟩ hm
  have hoptions := gather_eq OptionStatement.bare EnumMember.option? (fun m => by cases m <;> rfl) hm
  have hvalues := gather_eq EnumValue.bare EnumMember.value? (fun m => by cases m <;> rfl) hm
  have hreserved := gather_eq Reserved.bare EnumMember.reserved? (fun m => by cases m <;> rfl) hm
  rw [e.gather_members.1] at hoptions
  rw [e.gather_members.2.1] at hvalues
  rw [e.gather_members.2.2] at hreserved
  show Enum.mk name.bare ((members.filterMap EnumMember.option?).map OptionStatement.bare)
    ((members.filterMap EnumMember.value?).map EnumValue.bare)
    ((members.filterMap EnumMember.reserved?).map Reserved.bare) default = _
  rw [hname, hoptions, hvalues, hreserved]
  rfl

/-! ### Services -/

theorem methodType {streaming : Option Span} {n : TypeName}
    (h : n.isLegalMethodType streaming = true) :
    Prints Rule.methodType (n.methodPieces streaming)
      fun a => bareSpan a.1 = bareSpan streaming ∧ a.2.bare = n.bare := by
  obtain ⟨hn, ho⟩ := Bool.and_eq_true_iff.mp h
  cases streaming with
  | some s =>
      refine cons (mark .leftParen) fun _ _ => cons (P := fun a? => ∃ a : Span, a? = some a ∧ True)
        (token?_some (by decide) fun s => ⟨s, if_pos rfl, trivial⟩) ?_
      rintro _ ⟨s', rfl, -⟩
      exact (typeName hn).bind fun type htype => (mark .rightParen).last fun _ _ => ⟨rfl, htype⟩
  | none =>
      refine cons (mark .leftParen) fun _ _ => token?_none
        (Piece.first?_append n.first?_pieces _) (fun s => if_neg ?_)
        ((typeName hn).bind fun type htype => (mark .rightParen).last fun _ _ => ⟨rfl, htype⟩)
      intro heq
      rcases n.start_cases with ⟨hs, -⟩ | ⟨w, hs, hw⟩
      · cases hs.symm.trans heq
      · obtain rfl := Token.ident.inj (hs.symm.trans heq)
        rw [hw] at ho
        exact of_decide_eq_true (p := Keyword.kwStream.text ≠ Keyword.kwStream.text) ho rfl

theorem methodEnd {os : List OptionStatement} (h : ∀ o ∈ os, o.isLegal = true) :
    Prints Rule.methodEnd (Method.endPieces os)
      fun a => a.1.map OptionStatement.bare = os.map OptionStatement.bare := by
  cases os with
  | nil => exact left ((mark .semicolon).last fun _ _ => rfl)
  | cons o os => exact right (body (o :: os) fun x hx => optionStatement (h x hx))

theorem method {m : Method} (h : m.isLegal = true) :
    Prints Rule.method m.pieces fun a => a.bare = m.bare := by
  unfold Method.isLegal at h
  simp only [Bool.and_eq_true, List.all_eq_true] at h
  obtain ⟨⟨⟨hn, hi⟩, ho⟩, hos⟩ := h
  unfold Method.pieces
  rw [List.append_assoc, List.append_assoc]
  refine cons (keyword .kwRpc) fun _ _ => cons (ident hn) fun name hname =>
    (methodType hi).bind ?_
  rintro ⟨clientStreaming, input⟩ ⟨hclient, hinput⟩
  refine cons (keyword .kwReturns) fun _ _ => (methodType ho).bind ?_
  rintro ⟨serverStreaming, output⟩ ⟨hserver, houtput⟩
  refine (methodEnd hos).last ?_
  rintro ⟨options, stop⟩ hoptions
  show Method.mk name.bare input.bare output.bare (options.map OptionStatement.bare)
    (bareSpan clientStreaming) (bareSpan serverStreaming) default = _
  rw [hname, hinput, houtput, hoptions, hclient, hserver]
  rfl

theorem serviceMember {s : Service} (ho : ∀ x ∈ s.options, x.isLegal = true)
    (hms : ∀ x ∈ s.methods, x.isLegal = true) :
    ∀ m ∈ s.members, Prints Rule.serviceMember m.pieces fun a => a.bare = m.bare := by
  intro m hm
  rcases List.mem_append.mp hm with hm | hm
  · obtain ⟨x, hx, rfl⟩ := List.mem_map.mp hm
    exact switch_keyword (.head _) ((optionStatement (ho x hx)).map fun _ ha =>
      congrArg ServiceMember.option ha)
  · obtain ⟨x, hx, rfl⟩ := List.mem_map.mp hm
    exact switch_keyword (.tail _ (.head _)) ((method (hms x hx)).map fun _ ha =>
      congrArg ServiceMember.method ha)

theorem service {s : Service} (h : s.isLegal = true) :
    Prints Rule.service s.pieces fun a => a.bare = s.bare := by
  unfold Service.isLegal at h
  simp only [Bool.and_eq_true, List.all_eq_true] at h
  obtain ⟨⟨hn, ho⟩, hms⟩ := h
  have hbody : Piece.body (s.options.flatMap OptionStatement.pieces ++
      s.methods.flatMap Method.pieces) = Piece.body (s.members.flatMap ServiceMember.pieces) := by
    simp only [Service.members, List.flatMap_append, List.flatMap_map]
    rfl
  unfold Service.pieces
  rw [hbody]
  refine cons (keyword .kwService) fun _ _ => cons (ident hn) fun name hname =>
    (body s.members (serviceMember ho hms)).last ?_
  rintro ⟨members, stop⟩ hm
  have hoptions := gather_eq OptionStatement.bare ServiceMember.option? (fun m => by cases m <;> rfl) hm
  have hmethods := gather_eq Method.bare ServiceMember.method? (fun m => by cases m <;> rfl) hm
  rw [s.gather_members.1] at hoptions
  rw [s.gather_members.2] at hmethods
  show Service.mk name.bare ((members.filterMap ServiceMember.option?).map OptionStatement.bare)
    ((members.filterMap ServiceMember.method?).map Method.bare) default = _
  rw [hname, hoptions, hmethods]
  rfl

/-! ### Messages -/

theorem messageMember {nested : Rule Message} {m : Message}
    (hi : ∀ x ∈ m.items, x.isLegal = true) (ho : ∀ x ∈ m.options, x.isLegal = true)
    (hr : ∀ x ∈ m.reserved, x.isLegal = true) (he : ∀ x ∈ m.extensions, x.isLegal = true)
    (hnested : ∀ m', MessageItem.message m' ∈ m.items →
      Prints nested m'.pieces fun a => a.bare = m'.bare) :
    ∀ x ∈ m.members, Prints (Rule.messageMember nested) x.pieces fun a => a.bare = x.bare := by
  intro x hx
  rcases List.mem_append.mp hx with hx | hx
  · rcases List.mem_append.mp hx with hx | hx
    · rcases List.mem_append.mp hx with hx | hx
      · obtain ⟨i, hmem, rfl⟩ := List.mem_map.mp hx
        have hlegal := hi i hmem
        cases i with
        | field f =>
            have hothers : ∀ k ∈ messageKeywords,
                k.text ≠ Keyword.kwMap.text ∧ Parser.labelOf? k.text = none := by decide
            exact switch_other f.first?_pieces (Field.start_ne hlegal hothers)
              ((field hlegal).map fun _ ha => congrArg (MessageMember.item <| .field ·) ha)
        | oneof o =>
            exact switch_keyword (.tail _ (.tail _ (.head _))) ((oneof hlegal).map fun _ ha =>
              congrArg (MessageMember.item <| .oneof ·) ha)
        | message m' =>
            obtain ⟨name, items, options, reserved, extensions, span⟩ := m'
            exact switch_keyword (.head _) ((hnested _ hmem).map fun _ ha =>
              congrArg (MessageMember.item <| .message ·) ha)
        | enum e =>
            exact switch_keyword (.tail _ (.head _)) ((enum hlegal).map fun _ ha =>
              congrArg (MessageMember.item <| .enum ·) ha)
        | extend e =>
            exact switch_keyword (.tail _ (.tail _ (.tail _ (.head _))))
              ((extend hlegal).map fun _ ha => congrArg (MessageMember.item <| .extend ·) ha)
      · obtain ⟨o, hmem, rfl⟩ := List.mem_map.mp hx
        exact switch_keyword (.tail _ (.tail _ (.tail _ (.tail _ (.head _)))))
          ((optionStatement (ho o hmem)).map fun _ ha => congrArg MessageMember.option ha)
    · obtain ⟨r, hmem, rfl⟩ := List.mem_map.mp hx
      exact switch_keyword (.tail _ (.tail _ (.tail _ (.tail _ (.tail _ (.head _))))))
        ((reservedStatement (hr r hmem)).map fun _ ha => congrArg MessageMember.reserved ha)
  · obtain ⟨e, hmem, rfl⟩ := List.mem_map.mp hx
    exact switch_keyword (.tail _ (.tail _ (.tail _ (.tail _ (.tail _ (.tail _ (.head _)))))))
      ((extensionsStatement (he e hmem)).map fun _ ha => congrArg MessageMember.extensions ha)

/-- A message is printed as its members are. -/
theorem message_pieces (m : Message) :
    m.pieces = [Piece.keyword .kwMessage, Piece.word m.name.text] ++
      Piece.body (m.members.flatMap MessageMember.pieces) := by
  obtain ⟨name, items, options, reserved, extensions, span⟩ := m
  simp only [Message.pieces, Message.members, MessageItem.piecesAll_eq, List.flatMap_append,
    List.flatMap_map]
  rfl

theorem message_bare (m : Message) :
    m.bare = ⟨m.name.bare, m.items.map MessageItem.bare, m.options.map OptionStatement.bare,
      m.reserved.map Reserved.bare, m.extensions.map Extensions.bare, default⟩ := by
  obtain ⟨name, items, options, reserved, extensions, span⟩ := m
  rw [Message.bare, MessageItem.bareAll_eq]

theorem message_isLegal {m : Message} (h : m.isLegal = true) :
    m.name.isLegal = true ∧ (∀ x ∈ m.items, x.isLegal = true) ∧
      (∀ x ∈ m.options, x.isLegal = true) ∧ (∀ x ∈ m.reserved, x.isLegal = true) ∧
      ∀ x ∈ m.extensions, x.isLegal = true := by
  obtain ⟨name, items, options, reserved, extensions, span⟩ := m
  rw [Message.isLegal, MessageItem.areLegal_eq] at h
  simp only [Bool.and_eq_true, List.all_eq_true] at h
  obtain ⟨⟨⟨⟨hn, hi⟩, ho⟩, hr⟩, he⟩ := h
  exact ⟨hn, hi, ho, hr, he⟩

/-- The size of a message is deep enough for the messages within it. -/
theorem messageUpTo (depth : Nat) :
    ∀ m : Message, sizeOf m ≤ depth → m.isLegal = true →
      Prints (Rule.messageUpTo depth) m.pieces fun a => a.bare = m.bare := by
  induction depth with
  | zero =>
      intro m hm
      cases m
      simp only [Message.mk.sizeOf_spec] at hm
      omega
  | succ depth ih =>
      intro m hm h
      obtain ⟨hn, hi, ho, hr, he⟩ := message_isLegal h
      -- A message within is smaller, so the depth suffices for it.
      have hnested : ∀ m', MessageItem.message m' ∈ m.items →
          Prints (Rule.messageUpTo depth) m'.pieces fun a => a.bare = m'.bare := by
        intro m' hmem
        refine ih m' ?_ (hi _ hmem)
        have hlt := List.sizeOf_lt_of_mem hmem
        obtain ⟨name, items, options, reserved, extensions, span⟩ := m
        simp only [Message.mk.sizeOf_spec, MessageItem.message.sizeOf_spec] at hm hlt
        omega
      rw [message_pieces]
      refine cons (keyword .kwMessage) fun _ _ => cons (ident hn) fun name hname =>
        (body m.members (messageMember hi ho hr he hnested)).last ?_
      rintro ⟨members, stop⟩ hm'
      have hitems := gather_eq MessageItem.bare MessageMember.item? (fun m => by cases m <;> rfl) hm'
      have hoptions := gather_eq OptionStatement.bare MessageMember.option? (fun m => by cases m <;> rfl) hm'
      have hreserved := gather_eq Reserved.bare MessageMember.reserved? (fun m => by cases m <;> rfl) hm'
      have hextensions := gather_eq Extensions.bare MessageMember.extensions? (fun m => by cases m <;> rfl) hm'
      rw [m.gather_members.1] at hitems
      rw [m.gather_members.2.1] at hoptions
      rw [m.gather_members.2.2.1] at hreserved
      rw [m.gather_members.2.2.2] at hextensions
      rw [message_bare, message_bare]
      dsimp only at hitems hoptions hreserved hextensions ⊢
      rw [hname, hitems, hoptions, hreserved, hextensions]

theorem message {m : Message} (h : m.isLegal = true) :
    Prints Rule.message m.pieces fun a => a.bare = m.bare :=
  (messageUpTo (sizeOf m) m (Nat.le_refl _) h).mono (fun _ _ _ _ hr => ⟨_, hr⟩) fun _ ha => ha

end Prints

end ProtoSchema
