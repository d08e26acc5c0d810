/-
Every production without a body is curtailed.

The proofs follow the productions.  What the end of the source meets in a production is a token
that is asked for and is not there, and that is silent within a body.  Two remarks are about the
grammar, that on a word behind a minus sign and that on the path of an import.  The first is made
on a token that was found, so it is not made at the end of the source; the second stands in no body.
-/
import ProtoSchema.Proofs.Truncation.Curtailed

namespace ProtoSchema.Parser.Curtails

variable {α : Type}

/-! ### Loops over items -/

/-- A loop that takes one token a turn. -/
theorem tokens {β : Type} {want : Token → Span → Option β} {next : Option β → Parser (Turn α)}
    (hnone : next none = Pure.pure .stop)
    (hsome : ∀ b, ∃ a, next (some b) = Pure.pure (.yield a)) :
    Curtails (Parser.many (Parser.accept? want >>= next)) := by
  refine many (bind (accept? want) fun found => ?_) (.token hnone hsome)
  cases found with
  | none => rw [hnone]; exact pure _
  | some b =>
      obtain ⟨a, ha⟩ := hsome b
      rw [ha]
      exact pure _

/-- A loop over items, each behind a mark. -/
theorem items {p : Punctuation} {item : Parser α} {next : Option Span → Parser (Turn α)}
    (hi : Curtails item) (hsome : ∀ s, next (some s) = item >>= fun a => Pure.pure (.yield a))
    (hnone : Curtails (next none)) (hp : Progressive (Parser.acceptMark? p >>= next)) :
    Curtails (Parser.many (Parser.acceptMark? p >>= next)) := by
  refine many (bind (acceptMark? p) fun found => ?_) hp
  cases found with
  | none => exact hnone
  | some s =>
      rw [hsome]
      exact bind hi fun a => pure _

/-! ### Names -/

theorem ident : Curtails ident := require _ _

theorem dottedName (stop : Terminator) : Curtails (dottedName stop) := by
  unfold Parser.dottedName
  refine bind ident fun first => ?_
  refine bind (items ident (fun _ => rfl) ?_ (Orderly.nameTurn_progressive stop)) fun rest => pure _
  refine bind peek fun t? => ?_
  split
  · split
    · exact pure _
    · exact unexpected _
  · exact unexpected _

theorem typeName (stop : Terminator) : Curtails (typeName stop) := by
  unfold Parser.typeName
  refine bind peek fun t? => ?_
  split
  · exact bind (expectMark _) fun dot => bind (dottedName stop) fun name => pure _
  · exact bind (dottedName stop) fun name => pure _
  · exact unexpected _

/-! ### Literals -/

theorem integer : Curtails integer := by
  unfold Parser.integer
  refine bind (acceptMark? _) fun minus => bind (require _ _) fun ns => ?_
  split
  split
  · exact pure _
  · exact pure _

theorem stringLiteral : Curtails stringLiteral := by
  unfold Parser.stringLiteral
  refine bind (require _ _) fun first => ?_
  exact bind (tokens rfl fun s => ⟨s, rfl⟩) fun rest => pure _

theorem textLiteral : Curtails textLiteral := by
  unfold Parser.textLiteral
  refine bind stringLiteral fun s => ?_
  split
  · exact pure _
  · exact bind (report Diagnostic.Category.noConfusion) fun _ => pure _

/-! ### Options -/

theorem signedValue (minus : Option Span) : Curtails (signedValue minus) := by
  unfold Parser.signedValue
  refine requireThen fun value => ?_
  dsimp only
  split
  · rename_i name s
    split
    · exact .inl (pure _)
    · exact .inr ⟨.negativeIdent s, .ident true name s, rfl⟩
  · exact .inl (pure _)

theorem optionValue : Curtails optionValue := by
  unfold Parser.optionValue
  refine bind peek fun t? => ?_
  cases t? with
  | none => exact unexpected _
  | some t =>
      cases t with
      | ident word => exact bind ident fun name => pure _
      | int n => exact signedValue none
      | float x => exact signedValue none
      | string b => exact bind stringLiteral fun s => pure _
      | mark p =>
          cases p with
          | plus => exact bind (acceptMark? _) fun _ => signedValue none
          | minus => exact bind (expectMark _) fun minus => signedValue (some minus)
          | leftBrace => exact aggregate
          | _ => exact unexpected _

theorem optionNamePart : Curtails optionNamePart := by
  unfold Parser.optionNamePart
  refine bind peek fun t? => ?_
  split
  · refine bind (expectMark _) fun opening => bind (typeName _) fun name => ?_
    exact bind (expectMark _) fun closing => pure _
  · exact bind ident fun name => pure _
  · exact unexpected _

theorem optionSetting : Curtails optionSetting := by
  unfold Parser.optionSetting
  refine bind optionNamePart fun first => ?_
  refine bind (items optionNamePart (fun _ => rfl) ?_ Orderly.optionNameTurn_progressive)
    fun rest => bind optionValue fun value => pure _
  refine bind (acceptMark? _) fun found => ?_
  split
  · exact pure _
  · exact unexpected _

theorem optionStatement : Curtails optionStatement := by
  unfold Parser.optionStatement
  refine bind (expectKeyword _) fun start => bind optionSetting fun setting => ?_
  exact bind (expectMark _) fun stop => pure _

theorem optionList : Curtails optionList := by
  unfold Parser.optionList
  refine bind (expectMark _) fun opening => bind optionSetting fun first => ?_
  refine bind (items optionSetting (fun _ => rfl) ?_ Orderly.optionListTurn_progressive)
    fun rest => bind (expectMark _) fun closing => pure _
  refine bind peek fun t? => ?_
  split
  · exact pure _
  · exact unexpected _

theorem optionList? : Curtails optionList? := by
  unfold Parser.optionList?
  refine bind peek fun t? => ?_
  split
  · exact bind optionList fun list => pure _
  · exact pure _

/-! ### Fields -/

theorem label? : Curtails label? := accept? _

theorem typeUse (stop : Terminator) : Curtails (typeUse stop) := by
  unfold Parser.typeUse
  refine bind (accept? _) fun found => ?_
  split
  · exact pure _
  · exact bind (typeName stop) fun name => pure _

theorem fieldKind : Curtails fieldKind := by
  unfold Parser.fieldKind
  refine bind (acceptKeyword? _) fun found => ?_
  split
  · refine bind (expectMark _) fun _ => bind (typeUse _) fun key => ?_
    refine bind (expectMark _) fun _ => bind (typeUse _) fun value => ?_
    exact bind (expectMark _) fun stop => pure _
  · exact bind (typeUse _) fun ts => pure _

theorem field : Curtails field := by
  unfold Parser.field
  refine bind label? fun label => bind fieldKind fun kind => bind ident fun name => ?_
  refine bind (expectMark _) fun _ => bind integer fun number => ?_
  exact bind optionList? fun options => bind (expectMark _) fun stop => pure _

/-! ### Ranges and reservations -/

theorem numberRange : Curtails numberRange := by
  unfold Parser.numberRange
  refine bind integer fun start => bind (acceptKeyword? _) fun found => ?_
  split
  · exact pure _
  · refine bind (acceptKeyword? _) fun found => ?_
    split
    · exact pure _
    · refine bind peek fun t? => ?_
      cases t? with
      | none => exact unexpected _
      | some t =>
          cases t with
          | int n => exact bind integer fun stop => pure _
          | mark p =>
              cases p with
              | minus => exact bind integer fun stop => pure _
              | _ => exact unexpected _
          | _ => exact unexpected _

theorem separated {item : Parser α} (hi : Curtails item) (ho : Orderly 0 true item) :
    Curtails (separated item) := by
  unfold Parser.separated
  refine bind hi fun first => ?_
  exact bind (items hi (fun _ => rfl) (pure _) (Orderly.separatedTurn_progressive ho))
    fun rest => pure _

theorem reservedName : Curtails reservedName := by
  unfold Parser.reservedName
  refine bind peek fun t? => ?_
  split
  · exact ident
  · exact textLiteral

theorem reservedStatement : Curtails reservedStatement := by
  unfold Parser.reservedStatement
  refine bind (expectKeyword _) fun start => ?_
  have hstop (kind : ReservedKind) : Curtails (do
      let stop ← Parser.expectMark .semicolon
      Pure.pure (⟨kind, start.through stop⟩ : Reserved)) :=
    bind (expectMark _) fun stop => pure _
  have hranges : Curtails (do
      let ranges ← Parser.separated Parser.numberRange
      let kind ← Pure.pure (ReservedKind.ranges ranges)
      let stop ← Parser.expectMark .semicolon
      Pure.pure (⟨kind, start.through stop⟩ : Reserved)) :=
    bind (separated numberRange .numberRange) fun ranges => hstop _
  have hnames : Curtails (do
      let names ← Parser.separated Parser.reservedName
      let kind ← Pure.pure (ReservedKind.names names)
      let stop ← Parser.expectMark .semicolon
      Pure.pure (⟨kind, start.through stop⟩ : Reserved)) :=
    bind (separated reservedName .reservedName) fun names => hstop _
  refine bind peek fun t? => ?_
  cases t? with
  | none => exact bind (unexpected _) hstop
  | some t =>
      cases t with
      | int n => exact hranges
      | string b => exact hnames
      | ident word => exact hnames
      | float x => exact bind (unexpected _) hstop
      | mark p =>
          cases p with
          | minus => exact hranges
          | _ => exact bind (unexpected _) hstop

theorem extensionsStatement : Curtails extensionsStatement := by
  unfold Parser.extensionsStatement
  refine bind (expectKeyword _) fun start => ?_
  refine bind (separated numberRange .numberRange) fun ranges => ?_
  exact bind optionList? fun options => bind (expectMark _) fun stop => pure _

/-! ### Members without a body -/

theorem enumValue : Curtails enumValue := by
  unfold Parser.enumValue
  refine bind ident fun name => bind (expectMark _) fun _ => bind integer fun number => ?_
  exact bind optionList? fun options => bind (expectMark _) fun stop => pure _

theorem oneofMember : Curtails oneofMember := by
  unfold Parser.oneofMember
  refine bind peekKeyword fun k? => ?_
  split
  · exact map _ optionStatement
  · refine bind peek fun t? => ?_
    split
    · exact map _ field
    · exact map _ field
    · exact unexpected _

theorem extendMember : Curtails extendMember := by
  unfold Parser.extendMember
  refine bind peek fun t? => ?_
  split
  · exact field
  · exact field
  · exact unexpected _

theorem enumMember : Curtails enumMember := by
  unfold Parser.enumMember
  refine bind peekKeyword fun k? => ?_
  split
  · exact map _ optionStatement
  · exact map _ reservedStatement
  · refine bind peek fun t? => ?_
    split
    · exact map _ enumValue
    · exact unexpected _

theorem methodMember : Curtails methodMember := by
  unfold Parser.methodMember
  refine bind peekKeyword fun k? => ?_
  split
  · exact optionStatement
  · exact unexpected _

/-- The input or the output of a method. -/
theorem methodType : Curtails methodType := by
  unfold Parser.methodType
  refine bind (expectMark _) fun _ => bind (acceptKeyword? _) fun streaming => ?_
  exact bind (typeName _) fun type => bind (expectMark _) fun _ => pure _

end ProtoSchema.Parser.Curtails
