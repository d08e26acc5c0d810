/-
The productions of the grammar at other places.

Each production follows itself: of moved lexemes it yields the moved node.  Productions are taken
in the order of the grammar, each by its parts.  A span is put together from the spans of tokens
that the production has read, so it is moved because they are.
-/
import ProtoSchema.Proofs.Relocation.Parsing

namespace ProtoSchema

namespace Parser.Follows

variable {m : Relocation}

/-! ### Names -/

theorem ident : Follows m (Ident.moved m) Parser.ident Parser.ident :=
  require _ fun t s => by cases t <;> rfl

theorem dottedName (stop : Terminator) :
    Follows m (DottedName.moved m) (Parser.dottedName stop) (Parser.dottedName stop) := by
  refine bind ident fun first => bind (many (bind (acceptMark? _) fun dot => ?_)) fun rest =>
    pure _ rfl
  cases dot with
  | some dot => exact bind ident fun word => pure _ rfl
  | none =>
      refine bind peek fun t? => ?_
      cases t? with
      | none => exact unexpected _
      | some t =>
          show Follows m _ (if stop.admits t then _ else _) (if stop.admits t then _ else _)
          split
          · exact pure _ rfl
          · exact unexpected _

theorem typeName (stop : Terminator) :
    Follows m (TypeName.moved m) (Parser.typeName stop) (Parser.typeName stop) := by
  refine bind peek fun t? => ?_
  cases t? with
  | none => exact unexpected _
  | some t =>
      cases t with
      | ident word => exact bind (dottedName stop) fun name => pure _ rfl
      | mark mark =>
          cases mark with
          | dot =>
              exact bind (expectMark _) fun dot => bind (dottedName stop) fun name => pure _ rfl
          | _ => exact unexpected _
      | _ => exact unexpected _

/-! ### Literals -/

theorem integer : Follows m (IntLiteral.moved m) Parser.integer Parser.integer := by
  refine bind (acceptMark? _) fun minus => bind (l := fun v => (v.1, v.2.moved m))
    (require _ fun t s => by cases t <;> rfl) fun v => ?_
  cases minus with
  | some s => exact pure _ rfl
  | none => exact pure _ rfl

theorem quoted? (t : Token) (s : Span) :
    Parser.quoted? t (s.moved m) = (Parser.quoted? t s).map (StringLiteral.moved m) := by
  cases t <;> rfl

theorem stringLiteral :
    Follows m (StringLiteral.moved m) Parser.stringLiteral Parser.stringLiteral := by
  refine bind (require _ quoted?) fun first =>
    bind (l := List.map (StringLiteral.moved m)) (many (bind (accept? quoted?) fun s? => ?_))
      fun rest => pure _ ?_
  · cases s? with
    | some s => exact pure _ rfl
    | none => exact pure _ rfl
  · have hlast : (rest.map (StringLiteral.moved m)).getLastD (first.moved m) =
        (rest.getLastD first).moved m := by simp
    have hbytes : (rest.map (StringLiteral.moved m)).flatMap StringLiteral.bytes =
        rest.flatMap StringLiteral.bytes := by
      rw [List.flatMap_map]
      rfl
    rw [hlast, hbytes]
    rfl

theorem textLiteral : Follows m (Ident.moved m) Parser.textLiteral Parser.textLiteral := by
  refine bind stringLiteral fun s => ?_
  have hbytes : (s.moved m).bytes = s.bytes := rfl
  rw [hbytes]
  cases Utf8.decode? s.bytes with
  | some text => exact pure _ rfl
  | none => exact bind (report _) fun _ => pure _ rfl

/-! ### Values of options -/

theorem signedValue (minus : Option Span) :
    Follows m (OptionValue.moved m) (Parser.signedValue minus)
      (Parser.signedValue (minus.map (Span.moved m))) := by
  refine bind (l := OptionValue.moved m) (require _ fun t s => ?_) fun value => ?_
  · cases minus <;> cases t <;> rfl
  · cases value with
    | ident negative name s =>
        cases negative with
        | false => exact pure _ rfl
        | true =>
            show Follows m _ (if isNegatable name.text = true then _ else _)
              (if isNegatable name.text = true then _ else _)
            split
            · exact pure _ rfl
            · exact bind (report (.negativeIdent s)) fun _ => pure _ rfl
    | _ => exact pure _ rfl

theorem skipBlock_moved (m : Relocation) (depth : Nat) (log : List Diagnostic)
    (ls : List Lexeme) :
    skipBlock depth (log.map (Diagnostic.moved m)) (ls.map (Lexeme.moved m)) =
      ((skipBlock depth log ls).1.map (Span.moved m), (skipBlock depth log ls).2.moved m) := by
  induction ls generalizing depth log with
  | nil =>
      simp only [List.map_nil, skipBlock]
      rfl
  | cons lexeme ls ih =>
      cases lexeme with
      | note d =>
          simp only [List.map_cons, Lexeme.moved, skipBlock]
          exact ih depth (d :: log)
      | illegal c s =>
          simp only [List.map_cons, Lexeme.moved, skipBlock]
          exact ih depth (.invalidToken c s :: log)
      | token t s =>
          simp only [List.map_cons, Lexeme.moved]
          by_cases hl : t = .mark .leftBrace
          · cases depth <;> simp only [skipBlock, if_pos hl, ih]
          · by_cases hr : t = .mark .rightBrace
            · cases depth with
              | zero =>
                  simp only [skipBlock, if_neg hl, if_pos hr]
                  rfl
              | succ depth => simp only [skipBlock, if_neg hl, if_pos hr, ih]
            · rw [skipBlock_plain hl hr, skipBlock_plain hl hr, ih]

theorem blockEnd : Follows m (Span.moved m) Parser.blockEnd Parser.blockEnd := by
  intro env env' henv r
  have hlog : (r.moved m).log = r.log.map (Diagnostic.moved m) := rfl
  have hlexemes : (r.moved m).lexemes = r.lexemes.map (Lexeme.moved m) := rfl
  rw [Parser.blockEnd, Parser.blockEnd, hlog, hlexemes, skipBlock_moved]
  rcases skipBlock 0 r.log r.lexemes with ⟨_ | s, rest⟩
  · exact unexpected _ env env' henv rest
  · rfl

theorem trimmedSource (a b : Nat) :
    Follows m m.block (Parser.trimmedSource ⟨a, b⟩)
      (Parser.trimmedSource ⟨m.stop a, m.start b⟩) := by
  intro env env' henv r
  exact congrArg (Outcome.done · (r.moved m)) (henv.block a b)

theorem aggregate : Follows m (OptionValue.moved m) Parser.aggregate Parser.aggregate :=
  bind (expectMark _) fun opening => bind blockEnd fun closing =>
    bind (trimmedSource opening.stop closing.start) fun _ => pure _ rfl

theorem optionValue : Follows m (OptionValue.moved m) Parser.optionValue Parser.optionValue := by
  refine bind peek fun t? => ?_
  cases t? with
  | none => exact unexpected _
  | some t =>
      cases t with
      | ident word => exact bind ident fun name => pure _ rfl
      | string bytes => exact bind stringLiteral fun s => pure _ rfl
      | mark mark =>
          cases mark with
          | plus => exact bind (acceptMark? _) fun _ => signedValue none
          | minus => exact bind (expectMark _) fun minus => signedValue (some minus)
          | leftBrace => exact aggregate
          | _ => exact unexpected _
      | _ => exact signedValue none

/-! ### Settings -/

theorem optionNamePart :
    Follows m (OptionNamePart.moved m) Parser.optionNamePart Parser.optionNamePart := by
  refine bind peek fun t? => ?_
  cases t? with
  | none => exact unexpected _
  | some t =>
      cases t with
      | ident word => exact bind ident fun name => pure _ rfl
      | mark mark =>
          cases mark with
          | leftParen =>
              exact bind (expectMark _) fun opening => bind (typeName _) fun name =>
                bind (expectMark _) fun closing => pure _ rfl
          | _ => exact unexpected _
      | _ => exact unexpected _

theorem optionSetting :
    Follows m (OptionSetting.moved m) Parser.optionSetting Parser.optionSetting := by
  refine bind optionNamePart fun first => bind (many (bind (acceptMark? _) fun dot => ?_))
    fun rest => bind optionValue fun value => pure _ rfl
  cases dot with
  | some dot => exact bind optionNamePart fun part => pure _ rfl
  | none =>
      refine bind (acceptMark? _) fun equals => ?_
      cases equals with
      | some equals => exact pure _ rfl
      | none => exact unexpected _

theorem optionStatement :
    Follows m (OptionStatement.moved m) Parser.optionStatement Parser.optionStatement :=
  bind (expectKeyword _) fun _ => bind optionSetting fun _ =>
    bind (expectMark _) fun _ => pure _ rfl

theorem optionList : Follows m (OptionList.moved m) Parser.optionList Parser.optionList := by
  refine bind (expectMark _) fun opening => bind optionSetting fun first =>
    bind (many (bind (acceptMark? _) fun comma => ?_)) fun rest =>
      bind (expectMark _) fun closing => pure _ rfl
  cases comma with
  | some comma => exact bind optionSetting fun setting => pure _ rfl
  | none =>
      refine bind peek fun t? => ?_
      cases t? with
      | none => exact unexpected _
      | some t =>
          cases t with
          | mark mark =>
              cases mark with
              | rightBracket => exact pure _ rfl
              | _ => exact unexpected _
          | _ => exact unexpected _

theorem optionList? :
    Follows m (Option.map (OptionList.moved m)) Parser.optionList? Parser.optionList? := by
  refine bind peek fun t? => ?_
  cases t? with
  | none => exact pure _ rfl
  | some t =>
      cases t with
      | mark mark =>
          cases mark with
          | leftBracket => exact bind optionList fun list => pure _ rfl
          | _ => exact pure _ rfl
      | _ => exact pure _ rfl

/-! ### Fields -/

theorem label? : Follows m (movedWord m) Parser.label? Parser.label? := by
  refine accept? fun t s => ?_
  cases t with
  | ident word =>
      show (labelOf? word).map _ = ((labelOf? word).map _).map _
      rw [Option.map_map]
      rfl
  | _ => rfl

/-- A type with its place, elsewhere. -/
def movedUse (m : Relocation) (u : TypeUse × Span) : TypeUse × Span := (u.1.moved m, u.2.moved m)

theorem typeUse (stop : Terminator) :
    Follows m (movedUse m) (Parser.typeUse stop) (Parser.typeUse stop) := by
  refine bind (l := Option.map fun t => (t.1, t.2.moved m)) (accept? fun t s => ?_) fun type? => ?_
  · cases t with
    | ident word =>
        show (ScalarType.ofText? word).map _ = ((ScalarType.ofText? word).map _).map _
        rw [Option.map_map]
        rfl
    | _ => rfl
  · cases type? with
    | some type => exact pure _ rfl
    | none =>
        exact bind (typeName stop) fun name =>
          pure _ (Prod.ext rfl (name.span_moved m).symm)

theorem fieldKind : Follows m (FieldKind.moved m) Parser.fieldKind Parser.fieldKind := by
  refine bind (acceptKeyword? _) fun start => ?_
  cases start with
  | some start =>
      exact bind (expectMark _) fun _ => bind (typeUse _) fun key => bind (expectMark _) fun _ =>
        bind (typeUse _) fun value => bind (expectMark _) fun stop => pure _ rfl
  | none => exact bind (typeUse _) fun type => pure _ rfl

theorem field : Follows m (Field.moved m) Parser.field Parser.field := by
  refine bind label? fun label => bind fieldKind fun kind => bind ident fun name =>
    bind (expectMark _) fun _ => bind integer fun number => bind optionList? fun options =>
      bind (expectMark _) fun stop => pure _ ?_
  cases label with
  | none =>
      rw [Field.moved, kind.span_moved]
      rfl
  | some label => rfl

/-! ### Ranges and reservations -/

/-- The end of a range that is a number. -/
theorem rangeStop (start : IntLiteral) :
    Follows m (NumberRange.moved m)
      (do let stop ← Parser.integer
          Pure.pure ⟨start, .to stop⟩)
      (do let stop ← Parser.integer
          Pure.pure ⟨start.moved m, .to stop⟩) :=
  bind integer fun _ => pure _ rfl

theorem numberRange : Follows m (NumberRange.moved m) Parser.numberRange Parser.numberRange := by
  refine bind integer fun start => bind (acceptKeyword? _) fun word => ?_
  cases word with
  | none => exact pure _ rfl
  | some word =>
      refine bind (acceptKeyword? _) fun max => ?_
      cases max with
      | some max => exact pure _ rfl
      | none =>
          refine bind peek fun t? => ?_
          cases t? with
          | none => exact unexpected _
          | some t =>
              cases t with
              | int n => exact rangeStop start
              | mark mark =>
                  cases mark with
                  | minus => exact rangeStop start
                  | _ => exact unexpected _
              | _ => exact unexpected _

theorem separated {α β : Type} {l : α → β} {p : Parser α} {q : Parser β} (h : Follows m l p q) :
    Follows m (List.map l) (Parser.separated p) (Parser.separated q) := by
  refine bind h fun first => bind (many (bind (acceptMark? _) fun comma => ?_)) fun rest =>
    pure _ rfl
  cases comma with
  | some comma => exact bind h fun next => pure _ rfl
  | none => exact pure _ rfl

theorem reservedName : Follows m (Ident.moved m) Parser.reservedName Parser.reservedName := by
  refine bind peek fun t? => ?_
  cases t? with
  | none => exact textLiteral
  | some t =>
      cases t with
      | ident word => exact ident
      | _ => exact textLiteral

/-- The end of a reservation. -/
theorem reservedEnd (start : Span) (kind : ReservedKind) :
    Follows m (Reserved.moved m)
      (do let stop ← Parser.expectMark .semicolon
          Pure.pure ⟨kind, start.through stop⟩)
      (do let stop ← Parser.expectMark .semicolon
          Pure.pure ⟨kind.moved m, (start.moved m).through stop⟩) :=
  bind (expectMark _) fun _ => pure _ rfl

theorem reservedStatement :
    Follows m (Reserved.moved m) Parser.reservedStatement Parser.reservedStatement := by
  refine bind (expectKeyword _) fun start => bind peek fun t? => ?_
  have hranges := fun rs => bind (pure (.ranges rs) rfl) (reservedEnd (m := m) start)
  have hnames := fun ns => bind (pure (.names ns) rfl) (reservedEnd (m := m) start)
  cases t? with
  | none => exact bind (l := ReservedKind.moved m) (unexpected _) (reservedEnd start)
  | some t =>
      cases t with
      | int n => exact bind (separated numberRange) hranges
      | ident word => exact bind (separated reservedName) hnames
      | string bytes => exact bind (separated reservedName) hnames
      | mark mark =>
          cases mark with
          | minus => exact bind (separated numberRange) hranges
          | _ => exact bind (l := ReservedKind.moved m) (unexpected _) (reservedEnd start)
      | _ => exact bind (l := ReservedKind.moved m) (unexpected _) (reservedEnd start)

theorem extensionsStatement :
    Follows m (Extensions.moved m) Parser.extensionsStatement Parser.extensionsStatement :=
  bind (expectKeyword _) fun _ => bind (separated numberRange) fun _ => bind optionList? fun _ =>
    bind (expectMark _) fun _ => pure _ rfl

/-! ### Oneofs and extensions -/

/-- The members of one kind among moved members are the moved ones. -/
theorem filterMap_moved {α β : Type} {l : α → α} {k : β → β} {f : α → Option β}
    (hf : ∀ a, f (l a) = (f a).map k) (as : List α) :
    (as.map l).filterMap f = (as.filterMap f).map k := by
  rw [List.filterMap_map, List.map_filterMap]
  exact congrArg (List.filterMap · as) (funext hf)

/-- A member of a oneof, elsewhere. -/
def movedOneofMember (m : Relocation) : OneofMember → OneofMember
  | .option o => .option (o.moved m)
  | .field f => .field (f.moved m)

/-- A member that is a field, where one can stand. -/
theorem fieldMember {α β : Type} {l : α → β} {f : Field → α} {g : Field → β} (kind : BodyKind)
    (hf : ∀ x, l (f x) = g (x.moved m)) :
    Follows m l
      (do match ← Parser.peek with
          | some (.ident _) | some (.mark .dot) => f <$> Parser.field
          | _ => Parser.unexpected (.member kind))
      (do match ← Parser.peek with
          | some (.ident _) | some (.mark .dot) => g <$> Parser.field
          | _ => Parser.unexpected (.member kind)) := by
  refine bind peek fun t? => ?_
  cases t? with
  | none => exact unexpected _
  | some t =>
      cases t with
      | ident word => exact map field hf
      | mark mark =>
          cases mark with
          | dot => exact map field hf
          | _ => exact unexpected _
      | _ => exact unexpected _

theorem oneofMember :
    Follows m (movedOneofMember m) Parser.oneofMember Parser.oneofMember := by
  refine bind peekKeyword fun k? => ?_
  cases k? with
  | none => exact fieldMember _ fun _ => rfl
  | some k =>
      cases k with
      | kwOption => exact map optionStatement fun _ => rfl
      | _ => exact fieldMember _ fun _ => rfl

theorem oneof : Follows m (Oneof.moved m) Parser.oneof Parser.oneof := by
  refine bind (expectKeyword _) fun start => bind ident fun name =>
    bind (body _ oneofMember) fun members => pure _ ?_
  rw [filterMap_moved (k := OptionStatement.moved m) fun x => by cases x <;> rfl,
    filterMap_moved (k := Field.moved m) fun x => by cases x <;> rfl]
  rfl

theorem extendMember : Follows m (Field.moved m) Parser.extendMember Parser.extendMember := by
  refine bind peek fun t? => ?_
  cases t? with
  | none => exact unexpected _
  | some t =>
      cases t with
      | ident word => exact field
      | mark mark =>
          cases mark with
          | dot => exact field
          | _ => exact unexpected _
      | _ => exact unexpected _

theorem extend : Follows m (Extend.moved m) Parser.extend Parser.extend :=
  bind (expectKeyword _) fun _ => bind (typeName _) fun _ => bind (body _ extendMember) fun _ =>
    pure _ rfl

/-! ### Enums -/

theorem enumValue : Follows m (EnumValue.moved m) Parser.enumValue Parser.enumValue :=
  bind ident fun _ => bind (expectMark _) fun _ => bind integer fun _ => bind optionList? fun _ =>
    bind (expectMark _) fun _ => pure _ rfl

/-- A member of an enum, elsewhere. -/
def movedEnumMember (m : Relocation) : EnumMember → EnumMember
  | .option o => .option (o.moved m)
  | .reserved r => .reserved (r.moved m)
  | .value v => .value (v.moved m)

/-- A member of an enum that starts with no keyword. -/
theorem valueMember :
    Follows m (movedEnumMember m)
      (do match ← Parser.peek with
          | some (.ident _) => .value <$> Parser.enumValue
          | _ => Parser.unexpected (.member .enum))
      (do match ← Parser.peek with
          | some (.ident _) => .value <$> Parser.enumValue
          | _ => Parser.unexpected (.member .enum)) := by
  refine bind peek fun t? => ?_
  cases t? with
  | none => exact unexpected _
  | some t =>
      cases t with
      | ident word => exact map enumValue fun _ => rfl
      | _ => exact unexpected _

theorem enumMember : Follows m (movedEnumMember m) Parser.enumMember Parser.enumMember := by
  refine bind peekKeyword fun k? => ?_
  cases k? with
  | none => exact valueMember
  | some k =>
      cases k with
      | kwOption => exact map optionStatement fun _ => rfl
      | kwReserved => exact map reservedStatement fun _ => rfl
      | _ => exact valueMember

theorem enum : Follows m (Enum.moved m) Parser.enum Parser.enum := by
  refine bind (expectKeyword _) fun start => bind ident fun name =>
    bind (body _ enumMember) fun members => pure _ ?_
  rw [filterMap_moved (k := OptionStatement.moved m) fun x => by cases x <;> rfl,
    filterMap_moved (k := EnumValue.moved m) fun x => by cases x <;> rfl,
    filterMap_moved (k := Reserved.moved m) fun x => by cases x <;> rfl]
  rfl

/-! ### Services -/

theorem methodMember :
    Follows m (OptionStatement.moved m) Parser.methodMember Parser.methodMember := by
  refine bind peekKeyword fun k? => ?_
  cases k? with
  | none => exact unexpected _
  | some k =>
      cases k with
      | kwOption => exact optionStatement
      | _ => exact unexpected _

theorem methodType :
    Follows m (fun t => (t.1.map (Span.moved m), t.2.moved m)) Parser.methodType
      Parser.methodType :=
  bind (expectMark _) fun _ => bind (acceptKeyword? _) fun _ => bind (typeName _) fun _ =>
    bind (expectMark _) fun _ => pure _ rfl

/-- The options of a method and where it ends, elsewhere. -/
def movedEnd (m : Relocation) (e : List OptionStatement × Span) : List OptionStatement × Span :=
  (e.1.map (OptionStatement.moved m), e.2.moved m)

theorem method : Follows m (Method.moved m) Parser.method Parser.method := by
  refine bind (expectKeyword _) fun start => bind ident fun name => bind methodType fun input =>
    bind (expectKeyword _) fun _ => bind methodType fun output => bind peek fun t? => ?_
  cases t? with
  | none => exact bind (unexpected (l := movedEnd m) _) fun _ => pure _ rfl
  | some t =>
      cases t with
      | mark mark =>
          cases mark with
          | semicolon =>
              exact bind (expectMark _) fun stop =>
                bind (l := movedEnd m) (pure _ rfl) fun _ => pure _ rfl
          | leftBrace => exact bind (body _ methodMember) fun _ => pure _ rfl
          | _ => exact bind (unexpected (l := movedEnd m) _) fun _ => pure _ rfl
      | _ => exact bind (unexpected (l := movedEnd m) _) fun _ => pure _ rfl

/-- A member of a service, elsewhere. -/
def movedServiceMember (m : Relocation) : ServiceMember → ServiceMember
  | .option o => .option (o.moved m)
  | .method r => .method (r.moved m)

theorem serviceMember :
    Follows m (movedServiceMember m) Parser.serviceMember Parser.serviceMember := by
  refine bind peekKeyword fun k? => ?_
  cases k? with
  | none => exact unexpected _
  | some k =>
      cases k with
      | kwOption => exact map optionStatement fun _ => rfl
      | kwRpc => exact map method fun _ => rfl
      | _ => exact unexpected _

theorem service : Follows m (Service.moved m) Parser.service Parser.service := by
  refine bind (expectKeyword _) fun start => bind ident fun name =>
    bind (body _ serviceMember) fun members => pure _ ?_
  rw [filterMap_moved (k := OptionStatement.moved m) fun x => by cases x <;> rfl,
    filterMap_moved (k := Method.moved m) fun x => by cases x <;> rfl]
  rfl

/-! ### Messages -/

/-- A member of a message, elsewhere. -/
def movedMessageMember (m : Relocation) : MessageMember → MessageMember
  | .item i => .item (i.moved m)
  | .option o => .option (o.moved m)
  | .reserved r => .reserved (r.moved m)
  | .extensions e => .extensions (e.moved m)

theorem messageMember {p q : Parser Message} (h : Follows m (Message.moved m) p q) :
    Follows m (movedMessageMember m) (Parser.messageMember p) (Parser.messageMember q) := by
  refine bind peekKeyword fun k? => ?_
  cases k? with
  | none => exact fieldMember _ fun _ => rfl
  | some k =>
      cases k with
      | kwMessage => exact map h fun _ => rfl
      | kwEnum => exact map enum fun _ => rfl
      | kwOneof => exact map oneof fun _ => rfl
      | kwExtend => exact map extend fun _ => rfl
      | kwOption => exact map optionStatement fun _ => rfl
      | kwReserved => exact map reservedStatement fun _ => rfl
      | kwExtensions => exact map extensionsStatement fun _ => rfl
      | _ => exact fieldMember _ fun _ => rfl

theorem messageWithin (budget : List Lexeme) :
    Follows m (Message.moved m) (Parser.messageWithin budget)
      (Parser.messageWithin (budget.map (Lexeme.moved m))) := by
  induction budget with
  | nil => exact halt _
  | cons _ budget ih =>
      refine bind (expectKeyword _) fun start => bind ident fun name =>
        bind (body _ (messageMember ih)) fun members => pure _ ?_
      rw [Message.moved, MessageItem.movedAll_eq,
        filterMap_moved (k := MessageItem.moved m) fun x => by cases x <;> rfl,
        filterMap_moved (k := OptionStatement.moved m) fun x => by cases x <;> rfl,
        filterMap_moved (k := Reserved.moved m) fun x => by cases x <;> rfl,
        filterMap_moved (k := Extensions.moved m) fun x => by cases x <;> rfl]
      rfl

theorem message : Follows m (Message.moved m) Parser.message Parser.message :=
  fun env env' henv r => messageWithin r.lexemes env env' henv r

end Parser.Follows

/-! ### Statements and files -/

def Statement.moved (m : Relocation) : Statement → Statement
  | .dialect choice s => .dialect choice (s.moved m)
  | .package p => .package (p.moved m)
  | .dependency i => .dependency (i.moved m)
  | .option o => .option (o.moved m)
  | .message d => .message (d.moved m)
  | .enum e => .enum (e.moved m)
  | .extend e => .extend (e.moved m)
  | .service s => .service (s.moved m)

/-- A moved statement is placed as the statement is. -/
theorem File.place_moved (m : Relocation) (file : File) (first : Bool) (s : Statement) :
    (file.moved m).place first (s.moved m) =
      ((file.place first s).1.moved m, (file.place first s).2.map (Diagnostic.moved m)) := by
  obtain ⟨dialect, place, package, imports, options, messages, enums, blocks, services⟩ := file
  cases s with
  | dialect choice s =>
      cases place with
      | some earlier => rfl
      | none => cases first <;> rfl
  | package p => cases package <;> rfl
  | _ => simp [File.place, File.moved, Statement.moved]

namespace Parser

def Draft.moved (m : Relocation) (d : Draft) : Draft := ⟨d.file.moved m, d.first⟩

namespace Follows

variable {m : Relocation}

theorem dialectStatement :
    Follows m (Statement.moved m) Parser.dialectStatement Parser.dialectStatement := by
  refine bind (expectKeyword _) fun start => bind (expectMark _) fun _ =>
    bind stringLiteral fun value => ?_
  show Follows m _ (if (Dialect.ofBytes? value.bytes).isNone = true then _ else _)
    (if (Dialect.ofBytes? value.bytes).isNone = true then _ else _)
  split
  · exact bind (report _) fun _ => bind (expectMark _) fun _ => pure _ rfl
  · exact bind (expectMark _) fun _ => pure _ rfl

theorem packageStatement :
    Follows m (Package.moved m) Parser.packageStatement Parser.packageStatement :=
  bind (expectKeyword _) fun _ => bind (dottedName _) fun _ => bind (expectMark _) fun _ =>
    pure _ rfl

/-- What stands where the kind of an import could. -/
theorem noImportKind :
    Follows m (movedWord m)
      (do match ← Parser.peek with
          | some (.string _) => Pure.pure none
          | _ => Parser.unexpected .importTarget : Parser (Option (ImportKind × Span)))
      (do match ← Parser.peek with
          | some (.string _) => Pure.pure none
          | _ => Parser.unexpected .importTarget) := by
  refine bind peek fun t? => ?_
  cases t? with
  | none => exact unexpected _
  | some t =>
      cases t with
      | string bytes => exact pure _ rfl
      | _ => exact unexpected _

theorem importKind? : Follows m (movedWord m) Parser.importKind? Parser.importKind? := by
  refine bind peekKeyword fun k? => ?_
  cases k? with
  | none => exact noImportKind
  | some k =>
      cases k with
      | kwWeak => exact bind (expectKeyword _) fun _ => pure _ rfl
      | kwPublic => exact bind (expectKeyword _) fun _ => pure _ rfl
      | _ => exact noImportKind

theorem importStatement :
    Follows m (Import.moved m) Parser.importStatement Parser.importStatement := by
  refine bind (expectKeyword _) fun start => bind importKind? fun kind =>
    bind textLiteral fun path => ?_
  show Follows m _ (if (!isImportPath path.text.toList) = true then _ else _)
    (if (!isImportPath path.text.toList) = true then _ else _)
  split
  · exact bind (report _) fun _ => bind (expectMark _) fun _ => pure _ rfl
  · exact bind (expectMark _) fun _ => pure _ rfl

theorem statement : Follows m (Statement.moved m) Parser.statement Parser.statement := by
  refine bind peekKeyword fun k? => ?_
  cases k? with
  | none => exact unexpected _
  | some k =>
      cases k with
      | kwSyntax => exact dialectStatement
      | kwPackage => exact map packageStatement fun _ => rfl
      | kwImport => exact map importStatement fun _ => rfl
      | kwOption => exact map optionStatement fun _ => rfl
      | kwMessage => exact map message fun _ => rfl
      | kwEnum => exact map enum fun _ => rfl
      | kwExtend => exact map extend fun _ => rfl
      | kwService => exact map service fun _ => rfl
      | _ => exact unexpected _

/-- A turn of a file that starts a statement. -/
theorem statementTurn (d : Draft) (t : Token) :
    Follows m (Option.map (Draft.moved m))
      (do match ← Parser.attempt Parser.statement with
          | some s => do
            let (file, ds) := d.file.place d.first s
            Parser.reportAll ds
            Pure.pure (some ⟨file, false⟩)
          | none => do
            if t = .mark .rightBrace then
              let _ ← Parser.acceptMark? .rightBrace
            else Parser.recover
            Pure.pure (some { d with first := false }))
      (do match ← Parser.attempt Parser.statement with
          | some s => do
            let (file, ds) := (d.moved m).file.place (d.moved m).first s
            Parser.reportAll ds
            Pure.pure (some ⟨file, false⟩)
          | none => do
            if t = .mark .rightBrace then
              let _ ← Parser.acceptMark? .rightBrace
            else Parser.recover
            Pure.pure (some { d.moved m with first := false })) := by
  refine bind (attempt statement) fun s? => ?_
  cases s? with
  | some s =>
      -- Placing a statement and moving it commute.
      have hplace : (d.moved m).file.place (d.moved m).first (s.moved m) = _ :=
        d.file.place_moved m d.first s
      simp only [Option.map_some, hplace]
      exact bind (reportAll _) fun _ => pure _ rfl
  | none =>
      dsimp only [Option.map_none]
      split
      · exact bind (acceptMark? _) fun _ => pure _ rfl
      · exact bind recover fun _ => pure _ rfl

theorem nextStatement (d : Draft) :
    Follows m (Option.map (Draft.moved m)) (Parser.nextStatement d)
      (Parser.nextStatement (d.moved m)) := by
  refine bind peek fun t? => ?_
  cases t? with
  | none => exact pure _ rfl
  | some t =>
      cases t with
      | mark mark =>
          cases mark with
          | semicolon => exact bind (acceptMark? _) fun _ => pure _ rfl
          | _ => exact statementTurn d _
      | _ => exact statementTurn d _

theorem file : Follows m (File.moved m) Parser.file Parser.file :=
  bind (iterate nextStatement ⟨.empty, true⟩) fun _ => pure _ rfl

end Follows

end Parser

end ProtoSchema
