/-
What holds of every field that is parsed holds of every field of a tree.

Fields stand in messages, oneofs and extend blocks, at any depth, and each of these gathers what
its members are.  Nothing is done to a field on the way into the tree of a file.  So a property
that the parser of fields gives is carried up through members, bodies and statements, and what is
needed for the next property of fields is a proof about that parser alone.

The steps that do not depend on what is carried are stated for any property of items, statements
and files, and serve for other properties of trees as well.
-/
import ProtoSchema.Proofs.Parsing.Statements
import ProtoSchema.Proofs.Parsing.Yields

namespace ProtoSchema

/-! ### Fields of a tree -/

section

variable (P : Field → Prop)

mutual

/-- Every field of a message, at any depth, has a property. -/
def Message.EveryField : Message → Prop
  | ⟨_, items, _, _, _, _⟩ => MessageItem.EveryFieldAmong items

def MessageItem.EveryFieldAmong : List MessageItem → Prop
  | [] => True
  | i :: is => MessageItem.EveryField i ∧ MessageItem.EveryFieldAmong is

def MessageItem.EveryField : MessageItem → Prop
  | .field f => P f
  | .oneof o => ∀ f ∈ o.fields, P f
  | .message m => Message.EveryField m
  | .enum _ => True
  | .extend e => ∀ f ∈ e.fields, P f

end

def Statement.EveryField : Statement → Prop
  | .message m => m.EveryField P
  | .extend e => ∀ f ∈ e.fields, P f
  | _ => True

structure File.EveryField (file : File) : Prop where
  messages : ∀ m ∈ file.messages, m.EveryField P
  extendBlocks : ∀ e ∈ file.extendBlocks, ∀ f ∈ e.fields, P f

end

theorem MessageItem.everyFieldAmong_iff {P : Field → Prop} (items : List MessageItem) :
    EveryFieldAmong P items ↔ ∀ i ∈ items, i.EveryField P := by
  induction items with
  | nil => simp [EveryFieldAmong]
  | cons i is ih => simp [EveryFieldAmong, ih]

namespace Parser.Yields

variable {L : Lexeme → Prop}

/-! ### Members and messages -/

section

variable {P : Field → Prop}

theorem oneofMember_of (hfield : Yields L P Parser.field) :
    Yields L (fun m => ∀ f, m.field? = some f → P f) oneofMember := by
  have hmember : Yields L (fun m => ∀ f, m.field? = some f → P f)
      (OneofMember.field <$> Parser.field) := by
    refine map _ (mono hfield fun f hf g hg => ?_)
    obtain rfl := Option.some.inj hg
    exact hf
  unfold Parser.oneofMember
  refine after .peekKeyword fun k? => ?_
  split
  · exact map _ (mono (of_orderly .optionStatement) fun o _ f hf => by cases hf)
  · refine after .peek fun t? => ?_
    split
    · exact hmember
    · exact hmember
    · exact unexpected _

theorem oneof_of (hfield : Yields L P Parser.field) :
    Yields L (fun o => ∀ f ∈ o.fields, P f) oneof := by
  unfold Parser.oneof
  refine after (.expectKeyword _) fun start => ?_
  refine after .ident fun name => ?_
  refine bind (body (oneofMember_of hfield)) fun found hfound => pure ?_
  intro f hf
  obtain ⟨m, hm, hget⟩ := List.mem_filterMap.mp hf
  exact hfound m hm f hget

theorem extendMember_of (hfield : Yields L P Parser.field) : Yields L P extendMember := by
  unfold Parser.extendMember
  refine after .peek fun t? => ?_
  split
  · exact hfield
  · exact hfield
  · exact unexpected _

/-- What a block extends is of no concern to its fields. -/
theorem extend_of {Q : TypeName → Prop} (hname : ∀ stop, Yields L Q (Parser.typeName stop))
    (hfield : Yields L P Parser.field) :
    Yields L (fun e => Q e.extendee ∧ ∀ f ∈ e.fields, P f) extend := by
  unfold Parser.extend
  refine after (.expectKeyword _) fun start => ?_
  refine bind (hname _) fun extendee hextendee => ?_
  exact bind (body (extendMember_of hfield)) fun found hfound => pure ⟨hextendee, hfound⟩

end

section

variable {Q : MessageItem → Prop}

/-- A parser of items gives members with items that have a property. -/
theorem item {α : Type} {p : Parser α} {make : α → MessageItem}
    (hp : Yields L (fun a => Q (make a)) p) :
    Yields L (fun m => ∀ i, m.item? = some i → Q i)
      ((fun a => MessageMember.item (make a)) <$> p) := by
  refine map _ (mono hp fun a ha i hi => ?_)
  obtain rfl := Option.some.inj hi
  exact ha

theorem messageMember_of {nested : Parser Message}
    (hmessage : Yields L (fun m => Q (.message m)) nested)
    (henum : Yields L (fun e => Q (.enum e)) Parser.enum)
    (honeof : Yields L (fun o => Q (.oneof o)) Parser.oneof)
    (hextend : Yields L (fun e => Q (.extend e)) Parser.extend)
    (hfield : Yields L (fun f => Q (.field f)) Parser.field) :
    Yields L (fun m => ∀ i, m.item? = some i → Q i) (messageMember nested) := by
  unfold Parser.messageMember
  refine after .peekKeyword fun k? => ?_
  split
  · exact item hmessage
  · exact item henum
  · exact item honeof
  · exact item hextend
  · exact map _ (mono (of_orderly .optionStatement) fun o _ i hi => by cases hi)
  · exact map _ (mono (of_orderly .reservedStatement) fun r _ i hi => by cases hi)
  · exact map _ (mono (of_orderly .extensionsStatement) fun e _ i hi => by cases hi)
  · refine after .peek fun t? => ?_
    split
    · exact item hfield
    · exact item hfield
    · exact unexpected _

end

/-! ### Statements and files -/

section

variable {S : Statement → Prop} {Q : File → Prop}

theorem dialectStatement_of (hdialect : ∀ choice span, S (.dialect choice span)) :
    Yields L S dialectStatement := by
  unfold Parser.dialectStatement
  refine after (.expectKeyword _) fun start => ?_
  refine after (.expectMark (by decide) (by decide)) fun _ => ?_
  refine after .stringLiteral fun value => ?_
  have hrest : Yields L S (do
      let stop ← Parser.expectMark .semicolon
      Pure.pure (.dialect (Dialect.ofBytes? value.bytes) (start.through stop))) :=
    after (.expectMark (by decide) (by decide)) fun stop => pure (hdialect _ _)
  dsimp only
  split
  · exact after (.report rfl) fun _ => hrest
  · exact hrest

theorem statement_of (hdialect : ∀ choice span, S (.dialect choice span))
    (hpackage : Yields L (fun p => S (.package p)) Parser.packageStatement)
    (hdependency : ∀ i, S (.dependency i)) (hoption : ∀ o, S (.option o))
    (hmessage : Yields L (fun m => S (.message m)) Parser.message)
    (henum : Yields L (fun e => S (.enum e)) Parser.enum)
    (hextend : Yields L (fun e => S (.extend e)) Parser.extend)
    (hservice : Yields L (fun s => S (.service s)) Parser.service) : Yields L S statement := by
  unfold Parser.statement
  refine after .peekKeyword fun k? => ?_
  split
  · exact dialectStatement_of hdialect
  · exact map _ hpackage
  · exact map _ (mono (of_orderly .importStatement) fun i _ => hdependency i)
  · exact map _ (mono (of_orderly .optionStatement) fun o _ => hoption o)
  · exact map _ hmessage
  · exact map _ henum
  · exact map _ hextend
  · exact map _ hservice
  · exact unexpected _

/-- A file that is gathered from statements has what these give it. -/
theorem nextStatement_of (hstatement : Yields L S statement)
    (hplace : ∀ file st first, Q file → S st → Q (file.place first st).1) (draft : Draft)
    (hdraft : Q draft.file) :
    Yields L (fun next => ∀ d : Draft, next = some d → Q d.file) (nextStatement draft) := by
  have hnext : ∀ (file : File) (first : Bool), Q file →
      Yields L (fun next => ∀ d : Draft, next = some d → Q d.file)
        (Pure.pure (some ⟨file, first⟩)) := by
    intro file first hfile
    refine pure fun d hd => ?_
    obtain rfl := Option.some.inj hd
    exact hfile
  unfold Parser.nextStatement
  refine after .peek fun t? => ?_
  split
  · exact pure fun d h => by cases h
  · exact after (.acceptMark? (by decide) (by decide)) fun _ => hnext _ _ hdraft
  · refine bind (attempt hstatement) fun found hfound => ?_
    split
    · rename_i st
      refine bind (P := fun _ => True) ?_ fun _ _ =>
        hnext _ _ (hplace _ _ _ hdraft (hfound st rfl))
      intro env r hr
      rw [reportAll_run]
      exact ⟨trivial, hr⟩
    · split
      · refine bind (P := fun _ => True) ?_ fun _ _ => hnext _ _ hdraft
        exact mono (accept? (P := fun _ => True) fun _ _ _ _ _ => trivial) fun _ _ => trivial
      · exact bind recover fun _ _ => hnext _ _ hdraft

theorem file_of (hstatement : Yields L S statement) (hempty : Q .empty)
    (hplace : ∀ file st first, Q file → S st → Q (file.place first st).1) :
    Yields L Q Parser.file := by
  unfold Parser.file
  refine bind (P := fun d : Draft => Q d.file) ?_ fun draft hdraft => pure hdraft
  exact iterate (fun draft hdraft => nextStatement_of hstatement hplace draft hdraft) hempty

/-- The tree of a source has what every file has that is made of its lexemes. -/
theorem of_parseFile {source : List Char} {file : File} {ds : List Diagnostic}
    (hfile : Yields L Q Parser.file) (hscan : ∀ l ∈ scan source, L l)
    (h : parseFile source = .tree file ds) : Q file := by
  have hrun := hfile ⟨source, false⟩ ⟨scan source, []⟩ hscan
  unfold parseFile at h
  split at h
  · rename_i f r heq
    obtain ⟨rfl, -⟩ := ParseResult.tree.inj h
    rw [heq] at hrun
    exact hrun.1
  · cases h

end

/-! ### Every field -/

section

variable {P : Field → Prop}

theorem everyField_messageWithin (hfield : Yields L P Parser.field) (budget : List Lexeme) :
    Yields L (Message.EveryField P) (messageWithin budget) := by
  induction budget with
  | nil => exact halt .exhausted (by decide)
  | cons l budget ih =>
      unfold Parser.messageWithin
      refine after (.expectKeyword _) fun start => ?_
      refine after .ident fun name => ?_
      have hmember : Yields L (fun m => ∀ i, m.item? = some i → MessageItem.EveryField P i)
          (messageMember (messageWithin budget)) := by
        refine messageMember_of ?_ ?_ ?_ ?_ ?_
        · exact mono ih fun m hm => by rwa [MessageItem.EveryField]
        · exact mono (of_orderly .enum) fun e _ => by rw [MessageItem.EveryField]; trivial
        · exact mono (oneof_of hfield) fun o ho => by rwa [MessageItem.EveryField]
        · exact mono (extend_of (fun stop => of_orderly (.typeName stop)) hfield) fun e he => by
            rw [MessageItem.EveryField]
            exact he.2
        · exact mono hfield fun f hf => by rwa [MessageItem.EveryField]
      refine bind (body hmember) fun found hfound => pure ?_
      refine (MessageItem.everyFieldAmong_iff _).mpr fun i hi => ?_
      obtain ⟨m, hm, hget⟩ := List.mem_filterMap.mp hi
      exact hfound m hm i hget

theorem everyField_statement (hfield : Yields L P Parser.field) :
    Yields L (Statement.EveryField P) statement := by
  have hmessage : Yields L (Message.EveryField P) Parser.message :=
    fun env r hr => everyField_messageWithin hfield r.lexemes env r hr
  refine statement_of (fun _ _ => trivial) ?_ (fun _ => trivial) (fun _ => trivial) hmessage ?_ ?_
    ?_
  · exact mono (of_orderly .packageStatement) fun _ _ => trivial
  · exact mono (of_orderly .enum) fun _ _ => trivial
  · exact mono (extend_of (fun stop => of_orderly (.typeName stop)) hfield) fun e he => he.2
  · exact mono (of_orderly .service) fun _ _ => trivial

theorem everyField_place {file : File} {st : Statement} (hf : file.EveryField P)
    (hst : st.EveryField P) (first : Bool) : (file.place first st).1.EveryField P := by
  obtain ⟨hmessages, hextends⟩ := hf
  cases st with
  | dialect choice span =>
      simp only [File.place]
      split
      · exact ⟨hmessages, hextends⟩
      · split
        · exact ⟨hmessages, hextends⟩
        · exact ⟨hmessages, hextends⟩
  | package p =>
      simp only [File.place]
      split
      · exact ⟨hmessages, hextends⟩
      · exact ⟨hmessages, hextends⟩
  | dependency i => exact ⟨hmessages, hextends⟩
  | option o => exact ⟨hmessages, hextends⟩
  | message m => exact ⟨forall_mem_snoc hmessages hst, hextends⟩
  | enum e => exact ⟨hmessages, hextends⟩
  | extend e => exact ⟨hmessages, forall_mem_snoc hextends hst⟩
  | service s => exact ⟨hmessages, hextends⟩

/-- **What every field that is parsed has, every field of a file has.** -/
theorem everyField (hfield : Yields L P Parser.field) :
    Yields L (File.EveryField P) Parser.file :=
  file_of (everyField_statement hfield)
    ⟨fun _ hm => absurd hm List.not_mem_nil, fun _ he => absurd he List.not_mem_nil⟩
    fun _ _ first hf hst => everyField_place hf hst first

end

end Parser.Yields

end ProtoSchema
