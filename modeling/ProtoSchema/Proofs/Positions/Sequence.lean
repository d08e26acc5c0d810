/-
Trees that keep the order of the source.

A tree keeps the members of a body kind by kind, so of two members of different kinds it does not
tell which one stood first.  But among those of one kind nothing is moved: what comes earlier in a
list of a tree stands earlier in the source, and the name of a declaration stands before what is
declared within it.  `Sequential` says so of every declaration, at any depth.

A parser reads from left to right, so what it reads one after the other stands in a row.  For a
production with a body this is nearly all there is to say, because the members of one kind are some
of all members, in the same order.  The statements of a file are read in a loop, and the file is put
together from those that were read (`File.Gathers`), each of which stands behind the ones before it.
-/
import ProtoSchema.Proofs.Positions.Parsed

namespace ProtoSchema

open ProtoSchema.Parser (OneofMember EnumMember ServiceMember MessageMember)

/-! ### Nodes in line -/

/-- Nodes one behind the other, behind the word that heads them. -/
structure InLine {α : Type} [Node α] (head : Ident) (xs : List α) : Prop where
  headed : ∀ x ∈ xs, Precedes head x
  line : xs.Pairwise Precedes

section

variable {α β : Type} [Node α] [Node β] {source : List Char} {lo hi : Nat} {xs : List α}

theorem Row.inLine (h : Row source lo hi xs) {head : Ident} (hhead : head.span.stop ≤ lo) :
    InLine head xs :=
  ⟨fun x hx => Nat.le_trans hhead (h.lies x hx).within.after, h.pairwise⟩

/-- Nodes of one kind are in line if all nodes are. -/
theorem pairwise_gather {get : α → Option β} (h : xs.Pairwise Precedes)
    (hget : ∀ a b, get a = some b → Node.span b = Node.span a) :
    (xs.filterMap get).Pairwise Precedes := by
  refine h.filterMap get fun a a' haa' b hb b' hb' => ?_
  unfold Precedes
  rw [hget a b hb, hget a' b' hb']
  exact haa'

theorem InLine.gather {head : Ident} {get : α → Option β} (h : InLine head xs)
    (hget : ∀ a b, get a = some b → Node.span b = Node.span a) :
    InLine head (xs.filterMap get) := by
  refine ⟨List.forall_mem_filterMap.mpr fun a ha b hb => ?_, pairwise_gather h.line hget⟩
  unfold Precedes
  rw [hget a b hb]
  exact h.headed a ha

end

/-! ### Declarations in sequence -/

def Field.Sequential (f : Field) : Prop := (OptionList.settingsOf f.options).Pairwise Precedes

def EnumValue.Sequential (v : EnumValue) : Prop :=
  (OptionList.settingsOf v.options).Pairwise Precedes

def Extensions.Sequential (e : Extensions) : Prop :=
  (OptionList.settingsOf e.options).Pairwise Precedes

def Method.Sequential (m : Method) : Prop := m.options.Pairwise Precedes

structure Oneof.Sequential (o : Oneof) : Prop where
  options : o.options.Pairwise Precedes
  fields : InLine o.name o.fields
  within : ∀ f ∈ o.fields, f.Sequential

structure Extend.Sequential (e : Extend) : Prop where
  fields : e.fields.Pairwise Precedes
  within : ∀ f ∈ e.fields, f.Sequential

structure Enum.Sequential (e : Enum) : Prop where
  options : e.options.Pairwise Precedes
  values : InLine e.name e.values
  within : ∀ v ∈ e.values, v.Sequential

structure Service.Sequential (s : Service) : Prop where
  options : s.options.Pairwise Precedes
  methods : InLine s.name s.methods
  within : ∀ m ∈ s.methods, m.Sequential

inductive MessageItem.Sequential : MessageItem → Prop
  | field {f : Field} : f.Sequential → Sequential (.field f)
  | oneof {o : Oneof} : o.Sequential → Sequential (.oneof o)
  | enum {e : Enum} : e.Sequential → Sequential (.enum e)
  | extend {e : Extend} : e.Sequential → Sequential (.extend e)
  | message {m : Message} : m.options.Pairwise Precedes → InLine m.name m.items →
      (∀ e ∈ m.extensions, e.Sequential) → (∀ i ∈ m.items, Sequential i) → Sequential (.message m)

def Statement.Sequential : Statement → Prop
  | .message m => (MessageItem.message m).Sequential
  | .enum e => e.Sequential
  | .extend e => e.Sequential
  | .service s => s.Sequential
  | _ => True

namespace Parser

def OneofMember.Sequential : OneofMember → Prop
  | .field f => f.Sequential
  | .option _ => True

def EnumMember.Sequential : EnumMember → Prop
  | .value v => v.Sequential
  | .option _ | .reserved _ => True

def ServiceMember.Sequential : ServiceMember → Prop
  | .method m => m.Sequential
  | .option _ => True

def MessageMember.Sequential : MessageMember → Prop
  | .item i => i.Sequential
  | .extensions e => e.Sequential
  | .option _ | .reserved _ => True

end Parser

/-! ### Productions -/

namespace Parser.Traces

/-- A parser whose values have a property, wherever in the source it starts. -/
def Sequences {α : Type} (source : List Char) (A : α → Prop) (p : Parser α) : Prop :=
  ∀ lo, Traces source lo (fun _ a => A a) p

variable {α β : Type} {source : List Char} {lo : Nat}

/-- Of an option there is nothing to say. -/
theorem Sequences.option {A : α → Prop} {f : OptionStatement → α} (h : ∀ o, A (f o)) :
    Sequences source A (f <$> Parser.optionStatement) :=
  fun lo => Traces.map (mono (optionStatement lo) fun _ o _ _ => h o)

/-- Of a reservation there is nothing to say. -/
theorem Sequences.reserved {A : α → Prop} {f : Reserved → α} (h : ∀ r, A (f r)) :
    Sequences source A (f <$> Parser.reservedStatement) :=
  fun lo => Traces.map (mono (reservedStatement lo) fun _ r _ _ => h r)

/-- The members of a body stand in a row, and they have what each of them has. -/
theorem Sequences.body [inst : Node α] {A : α → Prop} {kind : BodyKind} {member : Parser α}
    (hA : Sequences source A member) (hm : Locates source member) :
    Traces source lo (fun _ found => Row source lo found.2.stop found.1 ∧ ∀ m ∈ found.1, A m)
      (Parser.body kind member) := by
  have hboth : @Locates α (inst.having A) source member := fun lo =>
    mono (Traces.and (hm lo) (hA lo)) fun _ _ _ h => h.1.having h.2
  exact mono (Traces.body hboth) fun _ _ _ h => h.2.of_having

theorem sequential_field : Sequences source Field.Sequential Parser.field := by
  intro lo
  unfold Parser.field
  refine bind label? fun label a _ _ => bind (fieldKind a) fun kind b _ _ => ?_
  refine bind (ident b) fun name c _ _ => bind (expectMark .equals) fun _ d _ _ => ?_
  refine bind (integer d) fun number e _ _ => bind optionList? fun options f _ hoptions => ?_
  exact bind (expectMark .semicolon) fun stop g _ _ => pure hoptions.2

theorem sequential_extensions : Sequences source Extensions.Sequential Parser.extensionsStatement := by
  intro lo
  unfold Parser.extensionsStatement
  refine bind (expectKeyword .kwExtensions) fun start a _ _ => ?_
  refine bind (separated numberRange) fun ranges b _ _ => ?_
  refine bind optionList? fun options c _ hoptions => ?_
  exact bind (expectMark .semicolon) fun stop d _ _ => pure hoptions.2

theorem sequential_enumValue : Sequences source EnumValue.Sequential Parser.enumValue := by
  intro lo
  unfold Parser.enumValue
  refine bind (ident lo) fun name a _ _ => bind (expectMark .equals) fun _ b _ _ => ?_
  refine bind (integer b) fun number c _ _ => bind optionList? fun options d _ hoptions => ?_
  exact bind (expectMark .semicolon) fun stop e _ _ => pure hoptions.2

theorem sequential_method : Sequences source Method.Sequential Parser.method := by
  intro lo
  unfold Parser.method
  refine bind (expectKeyword .kwRpc) fun start a _ _ => bind (ident a) fun name b _ _ => ?_
  refine bind methodType fun input c _ _ => bind (expectKeyword .kwReturns) fun _ d _ _ => ?_
  refine bind methodType fun output e _ _ => peek fun t? => ?_
  split
  · exact bind (expectMark .semicolon) fun s f _ _ => pure .nil
  · exact bind (body methodMember) fun found f _ hfound => pure hfound.2.pairwise
  · exact bind (Q := fun _ _ => False) (unexpected _) fun _ _ _ h => h.elim

theorem sequential_oneofMember : Sequences source OneofMember.Sequential Parser.oneofMember := by
  have hfield : Sequences source OneofMember.Sequential (OneofMember.field <$> Parser.field) :=
    fun lo => map (sequential_field lo)
  intro lo
  unfold Parser.oneofMember
  refine peekKeyword fun k? => ?_
  split
  · exact Sequences.option (fun _ => trivial) lo
  · refine peek fun t? => ?_
    split
    · exact hfield lo
    · exact hfield lo
    · exact unexpected _

theorem sequential_oneof : Sequences source Oneof.Sequential Parser.oneof := by
  intro lo
  unfold Parser.oneof
  refine bind (expectKeyword .kwOneof) fun start a _ _ => bind (ident a) fun name b _ hname => ?_
  refine bind (sequential_oneofMember.body oneofMember) fun found c _ hfound => ?_
  obtain ⟨hrow, hmembers⟩ := hfound
  have hline : InLine name found.1 := hrow.inLine hname.within.before
  refine pure ⟨pairwise_gather hline.line ?_, hline.gather ?_, ?_⟩
  · intro m o h
    cases m <;> cases h
    rfl
  · intro m f h
    cases m <;> cases h
    rfl
  · refine List.forall_mem_filterMap.mpr fun m hm f h => ?_
    cases m <;> cases h
    exact hmembers _ hm

theorem sequential_extend : Sequences source Extend.Sequential Parser.extend := by
  have hmember : Sequences source Field.Sequential Parser.extendMember := by
    intro lo
    unfold Parser.extendMember
    refine peek fun t? => ?_
    split
    · exact sequential_field lo
    · exact sequential_field lo
    · exact unexpected _
  intro lo
  unfold Parser.extend
  refine bind (expectKeyword .kwExtend) fun start a _ _ => bind (typeName _ a) fun extendee b _ _ => ?_
  refine bind (hmember.body extendMember) fun found c _ hfound => ?_
  exact pure ⟨hfound.1.pairwise, hfound.2⟩

theorem sequential_enumMember : Sequences source EnumMember.Sequential Parser.enumMember := by
  intro lo
  unfold Parser.enumMember
  refine peekKeyword fun k? => ?_
  split
  · exact Sequences.option (fun _ => trivial) lo
  · exact Sequences.reserved (fun _ => trivial) lo
  · refine peek fun t? => ?_
    split
    · exact map (sequential_enumValue lo)
    · exact unexpected _

theorem sequential_enum : Sequences source Enum.Sequential Parser.enum := by
  intro lo
  unfold Parser.enum
  refine bind (expectKeyword .kwEnum) fun start a _ _ => bind (ident a) fun name b _ hname => ?_
  refine bind (sequential_enumMember.body enumMember) fun found c _ hfound => ?_
  obtain ⟨hrow, hmembers⟩ := hfound
  have hline : InLine name found.1 := hrow.inLine hname.within.before
  refine pure ⟨pairwise_gather hline.line ?_, hline.gather ?_, List.forall_mem_filterMap.mpr ?_⟩
  · intro m o h
    cases m <;> cases h
    rfl
  · intro m v h
    cases m <;> cases h
    rfl
  · intro m hm v h
    cases m <;> cases h
    exact hmembers _ hm

theorem sequential_serviceMember : Sequences source ServiceMember.Sequential Parser.serviceMember := by
  intro lo
  unfold Parser.serviceMember
  refine peekKeyword fun k? => ?_
  split
  · exact Sequences.option (fun _ => trivial) lo
  · exact map (sequential_method lo)
  · exact unexpected _

theorem sequential_service : Sequences source Service.Sequential Parser.service := by
  intro lo
  unfold Parser.service
  refine bind (expectKeyword .kwService) fun start a _ _ => bind (ident a) fun name b _ hname => ?_
  refine bind (sequential_serviceMember.body serviceMember) fun found c _ hfound => ?_
  obtain ⟨hrow, hmembers⟩ := hfound
  have hline : InLine name found.1 := hrow.inLine hname.within.before
  refine pure ⟨pairwise_gather hline.line ?_, hline.gather ?_, List.forall_mem_filterMap.mpr ?_⟩
  · intro m o h
    cases m <;> cases h
    rfl
  · intro m x h
    cases m <;> cases h
    rfl
  · intro m hm x h
    cases m <;> cases h
    exact hmembers _ hm

theorem sequential_messageMember {nested : Parser Message}
    (hn : Sequences source (fun m => (MessageItem.message m).Sequential) nested) :
    Sequences source MessageMember.Sequential (Parser.messageMember nested) := by
  have hfield : Sequences source MessageMember.Sequential
      ((fun f => MessageMember.item (.field f)) <$> Parser.field) :=
    fun lo => map (mono (sequential_field lo) fun _ _ _ => .field)
  intro lo
  unfold Parser.messageMember
  refine peekKeyword fun k? => ?_
  split
  · exact map (hn lo)
  · exact map (mono (sequential_enum lo) fun _ _ _ => .enum)
  · exact map (mono (sequential_oneof lo) fun _ _ _ => .oneof)
  · exact map (mono (sequential_extend lo) fun _ _ _ => .extend)
  · exact Sequences.option (fun _ => trivial) lo
  · exact Sequences.reserved (fun _ => trivial) lo
  · exact map (sequential_extensions lo)
  · refine peek fun t? => ?_
    split
    · exact hfield lo
    · exact hfield lo
    · exact unexpected _

theorem sequential_messageWithin (budget : List Lexeme) :
    Sequences source (fun m => (MessageItem.message m).Sequential) (Parser.messageWithin budget) := by
  induction budget with
  | nil => exact fun lo => halt .exhausted
  | cons l budget ih =>
      intro lo
      unfold Parser.messageWithin
      refine bind (expectKeyword .kwMessage) fun start a _ _ => ?_
      refine bind (ident a) fun name b _ hname => ?_
      refine bind ((sequential_messageMember ih).body (messageMember (messageWithin budget)))
        fun found c _ hfound => ?_
      obtain ⟨hrow, hmembers⟩ := hfound
      have hline : InLine name found.1 := hrow.inLine hname.within.before
      refine pure (.message (pairwise_gather hline.line ?_) (hline.gather ?_)
        (List.forall_mem_filterMap.mpr ?_) (List.forall_mem_filterMap.mpr ?_))
      · intro m o h
        cases m <;> cases h
        rfl
      · intro m i h
        cases m <;> cases h
        rfl
      · intro m hm e h
        cases m <;> cases h
        exact hmembers _ hm
      · intro m hm i h
        cases m <;> cases h
        exact hmembers _ hm

theorem sequential_dialectStatement :
    Sequences source Statement.Sequential Parser.dialectStatement := by
  intro lo
  unfold Parser.dialectStatement
  refine bind (expectKeyword .kwSyntax) fun start a _ _ => bind (expectMark .equals) fun _ b _ _ => ?_
  refine bind (stringLiteral b) fun value c _ hvalue => ?_
  have hrest : Traces source c (fun _ st => st.Sequential) (do
      let stop ← Parser.expectMark .semicolon
      Pure.pure (Statement.dialect (Dialect.ofBytes? value.bytes) (start.through stop))) :=
    bind (Parser.Traces.expectMark .semicolon) fun _ _ _ _ => pure trivial
  dsimp only
  split
  · exact report (.one rfl hvalue.within.fits) hrest
  · exact hrest

theorem sequential_statement : Sequences source Statement.Sequential Parser.statement := by
  intro lo
  unfold Parser.statement
  refine peekKeyword fun k? => ?_
  split
  · exact sequential_dialectStatement lo
  · exact map (mono (packageStatement lo) fun _ _ _ _ => trivial)
  · exact map (mono (importStatement lo) fun _ _ _ _ => trivial)
  · exact Sequences.option (fun _ => trivial) lo
  · exact map fun inBody r hr => sequential_messageWithin r.lexemes lo inBody r hr
  · exact map (sequential_enum lo)
  · exact map (sequential_extend lo)
  · exact map (sequential_service lo)
  · exact unexpected _

end Parser.Traces

/-! ### Files

A file keeps its statements kind by kind, so it may keep a statement before one that stands before
it in the source.  But then the one that is kept first is of an earlier kind. -/

/-- The place of a kind of statement among the kinds in a file. -/
def Statement.rank : Statement → Nat
  | .dialect .. => 0
  | .package _ => 1
  | .dependency _ => 2
  | .option _ => 3
  | .message _ => 4
  | .enum _ => 5
  | .extend _ => 6
  | .service _ => 7

/-- Of two statements the first is kept before the second because of its place or of its kind. -/
def Statement.Filed (s t : Statement) : Prop :=
  Precedes s t ∨ s.rank < t.rank ∧ Precedes t s

/-- A statement is put behind those of its kind and of the kinds before. -/
theorem File.statements_place (file : File) (first : Bool) (st : Statement) :
    (file.place first st).1.statements = file.statements ∨
      ∃ front back, file.statements = front ++ back ∧
        (file.place first st).1.statements = front ++ st :: back ∧
        ∀ t ∈ back, st.rank < t.rank := by
  obtain ⟨dialect, chosen, package, imports, options, messages, enums, extendBlocks, services⟩ := file
  -- A file keeps its statements kind by kind; a new one comes last among those of its kind.
  cases st with
  | dialect choice span =>
      refine .inl ?_
      unfold place
      dsimp only
      split
      · rfl
      · split <;> rfl
  | package p =>
      cases package with
      | some earlier => exact .inl rfl
      | none =>
          refine .inr ⟨[], _, rfl, rfl, ?_⟩
          simp [Statement.rank, or_imp, forall_and]
  | dependency i =>
      refine .inr ⟨package.toList.map .package ++ imports.map .dependency,
        options.map .option ++ messages.map .message ++ enums.map .enum ++
          extendBlocks.map .extend ++ services.map .service, ?_, ?_, ?_⟩ <;>
      simp [statements, place, Statement.rank, or_imp, forall_and]
  | option o =>
      refine .inr ⟨package.toList.map .package ++ imports.map .dependency ++ options.map .option,
        messages.map .message ++ enums.map .enum ++ extendBlocks.map .extend ++
          services.map .service, ?_, ?_, ?_⟩ <;>
      simp [statements, place, Statement.rank, or_imp, forall_and]
  | message m =>
      refine .inr ⟨package.toList.map .package ++ imports.map .dependency ++ options.map .option ++
          messages.map .message,
        enums.map .enum ++ extendBlocks.map .extend ++ services.map .service, ?_, ?_, ?_⟩ <;>
      simp [statements, place, Statement.rank, or_imp, forall_and]
  | enum e =>
      refine .inr ⟨package.toList.map .package ++ imports.map .dependency ++ options.map .option ++
          messages.map .message ++ enums.map .enum,
        extendBlocks.map .extend ++ services.map .service, ?_, ?_, ?_⟩ <;>
      simp [statements, place, Statement.rank, or_imp, forall_and]
  | extend e =>
      refine .inr ⟨package.toList.map .package ++ imports.map .dependency ++ options.map .option ++
          messages.map .message ++ enums.map .enum ++ extendBlocks.map .extend,
        services.map .service, ?_, ?_, ?_⟩ <;>
      simp [statements, place, Statement.rank]
  | service s =>
      refine .inr ⟨_, [], (List.append_nil _).symm, ?_, fun t ht => (List.not_mem_nil ht).elim⟩
      simp [statements, place]

theorem File.dialectSpan_place_or (file : File) (first : Bool) (st : Statement) :
    (file.place first st).1.dialectSpan = file.dialectSpan ∨
      (file.place first st).1.dialectSpan = some st.span := by
  cases st with
  | dialect choice span =>
      unfold place
      dsimp only
      split
      · exact .inl rfl
      · split
        · exact .inr rfl
        · exact .inl rfl
  | package p =>
      unfold place
      dsimp only
      split <;> exact .inl rfl
  | _ => exact .inl rfl

/-- A file whose statements, read up to an offset, are kept in the order of the source. -/
structure File.Upto (source : List Char) (lo : Nat) (file : File) : Prop where
  liesIn : file.LiesIn source
  filed : file.statements.Pairwise Statement.Filed
  sequential : ∀ st ∈ file.statements, st.Sequential
  dialectSpan : ∀ s ∈ file.dialectSpan, s.stop ≤ lo
  read : ∀ st ∈ file.statements, st.span.stop ≤ lo

namespace File.Upto

variable {source : List Char} {lo hi : Nat} {file : File} {st : Statement}

theorem empty (source : List Char) (lo : Nat) : File.empty.Upto source lo where
  liesIn := .empty source
  filed := .nil
  sequential _ h := (List.not_mem_nil h).elim
  dialectSpan _ h := by cases h
  read _ h := (List.not_mem_nil h).elim

theorem mono (h : lo ≤ hi) (hf : file.Upto source lo) : file.Upto source hi :=
  { hf with
    dialectSpan := fun s hs => Nat.le_trans (hf.dialectSpan s hs) h
    read := fun st hst => Nat.le_trans (hf.read st hst) h }

/-- One more statement, read behind all others. -/
theorem place (hf : file.Upto source lo) (hst : Lies source ⟨lo, hi⟩ st) (hseq : st.Sequential)
    (first : Bool) : (file.place first st).1.Upto source hi := by
  have hle : lo ≤ hi := hst.within.start_le_stop
  have hliesIn := (hf.liesIn.place hst first).1
  have hdialect : ∀ s ∈ (file.place first st).1.dialectSpan, s.stop ≤ hi := by
    intro s hs
    rcases file.dialectSpan_place_or first st with h | h
    · rw [h] at hs
      exact Nat.le_trans (hf.dialectSpan s hs) hle
    · rw [h] at hs
      obtain rfl := Option.some.inj hs
      exact hst.within.before
  rcases file.statements_place first st with h | ⟨front, back, hsplit, hplace, hback⟩
  · have hread : ∀ t ∈ (file.place first st).1.statements, t.span.stop ≤ hi := by
      rw [h]
      exact fun t ht => Nat.le_trans (hf.read t ht) hle
    exact ⟨hliesIn, h ▸ hf.filed, h ▸ hf.sequential, hdialect, hread⟩
  · have hmem : ∀ t ∈ front ++ st :: back, t = st ∨ t ∈ file.statements := by
      intro t ht
      rw [hsplit, List.mem_append]
      rcases List.mem_append.mp ht with ht | ht
      · exact .inr (.inl ht)
      · exact (List.mem_cons.mp ht).imp id .inr
    -- The new statement was read last, so it stands behind all others wherever it is filed.
    have hbehind : ∀ t ∈ file.statements, Precedes t st := fun t ht =>
      Nat.le_trans (hf.read t ht) hst.within.after
    have hfiled := hf.filed
    rw [hsplit] at hfiled hbehind
    obtain ⟨hf₁, hf₂, hacross⟩ := List.pairwise_append.mp hfiled
    refine ⟨hliesIn, ?_, ?_, hdialect, ?_⟩
    · rw [hplace]
      refine List.pairwise_append.mpr ⟨hf₁, List.pairwise_cons.mpr ⟨fun t ht => ?_, hf₂⟩, ?_⟩
      · exact .inr ⟨hback t ht, hbehind t (List.mem_append_right _ ht)⟩
      · intro t ht u hu
        rcases List.mem_cons.mp hu with rfl | hu
        · exact .inl (hbehind t (List.mem_append_left _ ht))
        · exact hacross t ht u hu
    · intro t ht
      rcases hmem t (hplace ▸ ht) with rfl | ht
      · exact hseq
      · exact hf.sequential t ht
    · intro t ht
      rcases hmem t (hplace ▸ ht) with rfl | ht
      · exact hst.within.before
      · exact Nat.le_trans (hf.read t ht) hle

end File.Upto

namespace Parser.Traces

variable {source : List Char}

theorem nextStatement_upto (lo : Nat) (draft : Draft) (hd : draft.file.Upto source lo) :
    Traces source lo (fun hi next => ∀ d : Draft, next = some d → d.file.Upto source hi)
      (Parser.nextStatement draft) :=
  nextStatement (fun lo => Traces.and (statement lo) (sequential_statement lo))
    (fun _ _ _ hle hf => hf.mono hle)
    (fun _ _ _ _ first hf hst => ⟨hf.place hst.1 hst.2 first, (hf.liesIn.place hst.1 first).2⟩)
    lo draft hd

theorem file_upto (source : List Char) :
    Traces source 0 (fun hi file => file.Upto source hi) Parser.file :=
  file (fun _ _ _ hle hf => hf.mono hle) nextStatement_upto (.empty source 0)

end Parser.Traces

/-- A file that parsing gives is kept in the order of the source. -/
theorem upto_of_parseFile {source : List Char} {file : File} {ds : List Diagnostic}
    (h : parseFile source = .tree file ds) : ∃ hi, file.Upto source hi := by
  have htraces := Parser.Traces.file_upto source false ⟨scan source, []⟩ (.start source)
  unfold parseFile at h
  cases hrun : Parser.file ⟨source, false⟩ ⟨scan source, []⟩ with
  | halted reason r =>
      rw [hrun] at h
      cases h
  | done file' r =>
      rw [hrun] at h htraces
      obtain ⟨hi, -, hfile, -⟩ := htraces
      obtain ⟨rfl, -⟩ := ParseResult.tree.inj h
      exact ⟨hi, hfile⟩

end ProtoSchema
