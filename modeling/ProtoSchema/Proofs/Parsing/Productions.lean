/-
Every production keeps the order.

The proofs follow the productions: a sequence is orderly because its parts are, and a
choice because each branch is.  The productions that stand in a loop or in a body are
strict as well.  Only a message counts its nesting off against a budget; every other
production is orderly for any number of turns.
-/
import ProtoSchema.Grammar.File
import ProtoSchema.Proofs.Parsing.Body

namespace ProtoSchema.Parser

/-! ### The turns of loops over items -/

/-- A turn of the loop over the words of a name. -/
def nameTurn (stop : Terminator) : Parser (Turn Ident) := do
  match ← acceptMark? .dot with
  | some _ => do
    let word ← ident
    pure (.yield word)
  | none => do
    match ← peek with
    | some t => if stop.admits t then pure .stop else unexpected (.nameEnd stop)
    | none => unexpected (.nameEnd stop)

theorem dottedName_eq (stop : Terminator) : dottedName stop = (do
    let first ← ident
    let rest ← many (nameTurn stop)
    pure ⟨first, rest⟩) := rfl

/-- A turn of the loop over the parts of a string. -/
def stringTurn : Parser (Turn StringLiteral) := do
  match ← accept? quoted? with
  | some s => pure (.yield s)
  | none => pure .stop

theorem stringLiteral_eq : stringLiteral = (do
    let first ← require .string quoted?
    let rest ← many stringTurn
    pure ⟨first.bytes ++ rest.flatMap StringLiteral.bytes,
      first.span.through (rest.getLastD first).span⟩) := rfl

/-- A turn of the loop over the parts of the name of an option. -/
def optionNameTurn : Parser (Turn OptionNamePart) := do
  match ← acceptMark? .dot with
  | some _ => do
    let part ← optionNamePart
    pure (.yield part)
  | none => do
    match ← acceptMark? .equals with
    | some _ => pure .stop
    | none => unexpected .optionNameEnd

theorem optionSetting_eq : optionSetting = (do
    let first ← optionNamePart
    let rest ← many optionNameTurn
    let value ← optionValue
    pure ⟨first, rest, value⟩) := rfl

/-- A turn of the loop over options in brackets. -/
def optionListTurn : Parser (Turn OptionSetting) := do
  match ← acceptMark? .comma with
  | some _ => do
    let setting ← optionSetting
    pure (.yield setting)
  | none => do
    match ← peek with
    | some (.mark .rightBracket) => pure .stop
    | _ => unexpected .optionListEnd

theorem optionList_eq : optionList = (do
    let opening ← expectMark .leftBracket
    let first ← optionSetting
    let rest ← many optionListTurn
    let closing ← expectMark .rightBracket
    pure ⟨first :: rest, opening.through closing⟩) := rfl

/-- A turn of the loop over items with commas between them. -/
def separatedTurn {α : Type} (item : Parser α) : Parser (Turn α) := do
  match ← acceptMark? .comma with
  | some _ => do
    let next ← item
    pure (.yield next)
  | none => pure .stop

theorem separated_eq {α : Type} (item : Parser α) : separated item = (do
    let first ← item
    let rest ← many (separatedTurn item)
    pure (first :: rest)) := rfl

namespace Progressive

variable {α β : Type}

/-- A turn that takes one token, or stops. -/
theorem token {want : Token → Span → Option β} {next : Option β → Parser (Turn α)}
    (hnone : next none = Pure.pure .stop)
    (hsome : ∀ b, ∃ a, next (some b) = Pure.pure (.yield a)) :
    Progressive (accept? want >>= next) := by
  intro env r t r' h
  rcases r.settle_lexemes with hs | ⟨tok, s, ls, hs⟩
  · rw [bind_done (accept?_run_nil want env hs), hnone] at h
    cases h
    exact Or.inl rfl
  · cases hw : want tok s with
    | none =>
        rw [bind_done (accept?_run_none env hs hw), hnone] at h
        cases h
        exact Or.inl rfl
    | some b =>
        obtain ⟨a, ha⟩ := hsome b
        rw [bind_done (accept?_run_some env hs hw), ha] at h
        cases h
        exact Or.inr (Remainder.length_lt_of_settle hs)

/-- A turn about an item behind a mark. -/
theorem item {p : Punctuation} {item : Parser α} {next : Option Span → Parser (Turn α)}
    (hl : p ≠ .leftBrace) (hr : p ≠ .rightBrace) (hi : Orderly 0 true item)
    (hsome : ∀ s, next (some s) = item >>= fun a => Pure.pure (.yield a))
    (hp : Progressive (next none)) : Progressive (acceptMark? p >>= next) := by
  refine .bind (n := 0) (Orderly.acceptMark? hl hr) fun found => ?_
  cases found with
  | none => exact hp
  | some s =>
      rw [hsome]
      exact .yield hi

end Progressive

namespace Orderly

variable {α : Type} {n : Nat} {strict : Bool}

/-! ### Loops over items -/

/-- A loop that takes one token a turn. -/
theorem tokens {β : Type} {want : Token → Span → Option β} {next : Option β → Parser (Turn α)}
    (hl : ∀ s, want (.mark .leftBrace) s = none) (hr : ∀ s, want (.mark .rightBrace) s = none)
    (hnone : next none = Pure.pure .stop)
    (hsome : ∀ b, ∃ a, next (some b) = Pure.pure (.yield a)) :
    Orderly n false (Parser.many (Parser.accept? want >>= next)) := by
  refine many (bind (accept? hl hr) fun found => ?_) (.token hnone hsome)
  cases found with
  | none => rw [hnone]; exact pure _
  | some b =>
      obtain ⟨a, ha⟩ := hsome b
      rw [ha]
      exact pure _

/-- A loop over items, each behind a mark. -/
theorem items {p : Punctuation} {item : Parser α} {next : Option Span → Parser (Turn α)}
    (hl : p ≠ .leftBrace) (hr : p ≠ .rightBrace) (hi : ∀ m, Orderly m true item)
    (hsome : ∀ s, next (some s) = item >>= fun a => Pure.pure (.yield a))
    (ho : ∀ m, Orderly m false (next none))
    (hp : Progressive (Parser.acceptMark? p >>= next)) :
    Orderly n false (Parser.many (Parser.acceptMark? p >>= next)) := by
  refine many (bind (acceptMark? hl hr) fun found => ?_) hp
  cases found with
  | none => exact ho n
  | some s =>
      rw [hsome]
      exact bind (hi n).relax fun a => pure _

/-! ### Names -/

theorem ident : Orderly n true ident :=
  require (fun _ => rfl) (fun _ => rfl)

theorem nameTurn_progressive (stop : Terminator) : Progressive (nameTurn stop) := by
  refine .item (by decide) (by decide) ident (fun _ => rfl) ?_
  refine .bind (n := 0) peek fun t? => ?_
  split
  · split
    · exact .stop
    · exact .unexpected _
  · exact .unexpected _

theorem dottedName (stop : Terminator) : Orderly n true (dottedName stop) := by
  unfold Parser.dottedName
  refine bindStrict (Nat.le_succ n) ident fun first => ?_
  refine bind (items (by decide) (by decide) (fun _ => ident) (fun _ => rfl) (fun m => ?_)
    (nameTurn_progressive stop)) fun rest => pure _
  refine bind peek fun t? => ?_
  split
  · split
    · exact pure _
    · exact unexpected _
  · exact unexpected _

theorem typeName (stop : Terminator) : Orderly n true (typeName stop) := by
  unfold Parser.typeName
  refine bind peek fun t? => ?_
  split
  · refine bindStrict (Nat.le_succ n) (expectMark (by decide) (by decide)) fun dot => ?_
    exact bind (dottedName stop).relax fun name => pure _
  · exact bindStrict (Nat.le_succ n) (dottedName stop) fun name => pure _
  · exact unexpected _

/-! ### Literals -/

theorem integer : Orderly n true integer := by
  unfold Parser.integer
  refine bind (acceptMark? (by decide) (by decide)) fun minus => ?_
  refine bindStrict (Nat.le_succ n) (require (fun _ => rfl) (fun _ => rfl)) fun ns => ?_
  split
  split
  · exact pure _
  · exact pure _

theorem stringLiteral : Orderly n true stringLiteral := by
  unfold Parser.stringLiteral
  refine bindStrict (Nat.le_succ n) (require (fun _ => rfl) (fun _ => rfl)) fun first => ?_
  exact bind (tokens (fun _ => rfl) (fun _ => rfl) rfl fun s => ⟨s, rfl⟩) fun rest => pure _

theorem textLiteral : Orderly n true textLiteral := by
  unfold Parser.textLiteral
  refine bindStrict (Nat.le_succ n) stringLiteral fun s => ?_
  split
  · exact pure _
  · exact bind (report rfl) fun _ => pure _

/-! ### Options -/

theorem signedValue (minus : Option Span) : Orderly n true (signedValue minus) := by
  unfold Parser.signedValue
  refine bindStrict (Nat.le_succ n) (require (fun _ => rfl) (fun _ => rfl)) fun value => ?_
  dsimp only
  split
  · split
    · exact pure _
    · exact bind (report rfl) fun _ => pure _
  · exact pure _

theorem optionValue : Orderly n true optionValue := by
  unfold Parser.optionValue
  refine bind peek fun t? => ?_
  cases t? with
  | none => exact unexpected _
  | some t =>
      cases t with
      | ident w => exact bindStrict (Nat.le_succ n) ident fun name => pure _
      | int n => exact signedValue none
      | float x => exact signedValue none
      | string b => exact bindStrict (Nat.le_succ n) stringLiteral fun s => pure _
      | mark p =>
          cases p with
          | plus => exact bind (acceptMark? (by decide) (by decide)) fun _ => signedValue none
          | minus =>
              exact bind (expectMark (by decide) (by decide)).relax fun minus =>
                signedValue (some minus)
          | leftBrace => exact aggregate
          | _ => exact unexpected _

theorem optionNamePart : Orderly n true optionNamePart := by
  unfold Parser.optionNamePart
  refine bind peek fun t? => ?_
  split
  · refine bindStrict (Nat.le_succ n) (expectMark (by decide) (by decide)) fun opening => ?_
    refine bind (typeName _).relax fun name => ?_
    exact bind (expectMark (by decide) (by decide)).relax fun closing => pure _
  · exact bindStrict (Nat.le_succ n) ident fun name => pure _
  · exact unexpected _

theorem optionNameTurn_progressive : Progressive optionNameTurn := by
  refine .item (by decide) (by decide) optionNamePart (fun _ => rfl) ?_
  refine .bind (n := 0) (acceptMark? (by decide) (by decide)) fun found => ?_
  split
  · exact .stop
  · exact .unexpected _

theorem optionSetting : Orderly n true optionSetting := by
  unfold Parser.optionSetting
  refine bindStrict (Nat.le_succ n) optionNamePart fun first => ?_
  refine bind (items (by decide) (by decide) (fun _ => optionNamePart) (fun _ => rfl) (fun m => ?_)
    optionNameTurn_progressive) fun rest => bind optionValue.relax fun value => pure _
  refine bind (acceptMark? (by decide) (by decide)) fun found => ?_
  split
  · exact pure _
  · exact unexpected _

theorem optionStatement : Orderly n true optionStatement := by
  unfold Parser.optionStatement
  refine bindStrict (Nat.le_succ n) (expectKeyword _) fun start => ?_
  refine bind optionSetting.relax fun setting => ?_
  exact bind (expectMark (by decide) (by decide)).relax fun stop => pure _

theorem optionListTurn_progressive : Progressive optionListTurn := by
  refine .item (by decide) (by decide) optionSetting (fun _ => rfl) ?_
  refine .bind (n := 0) peek fun t? => ?_
  split
  · exact .stop
  · exact .unexpected _

theorem optionList : Orderly n true optionList := by
  unfold Parser.optionList
  refine bindStrict (Nat.le_succ n) (expectMark (by decide) (by decide)) fun opening => ?_
  refine bind optionSetting.relax fun first => ?_
  refine bind (items (by decide) (by decide) (fun _ => optionSetting) (fun _ => rfl) (fun m => ?_)
    optionListTurn_progressive) fun rest =>
      bind (expectMark (by decide) (by decide)).relax fun closing => pure _
  refine bind peek fun t? => ?_
  split
  · exact pure _
  · exact unexpected _

theorem optionList? : Orderly n false optionList? := by
  unfold Parser.optionList?
  refine bind peek fun t? => ?_
  split
  · exact bind optionList.relax fun list => pure _
  · exact pure _

/-! ### Fields -/

theorem label? : Orderly n false label? :=
  accept? (fun _ => rfl) (fun _ => rfl)

theorem typeUse (stop : Terminator) : Orderly n true (typeUse stop) := by
  unfold Parser.typeUse
  refine acceptStrict (fun _ => rfl) (fun _ => rfl) ?_ fun _ => pure _
  exact bindStrict (Nat.le_succ n) (typeName stop) fun name => pure _

theorem fieldKind : Orderly n true fieldKind := by
  unfold Parser.fieldKind
  refine acceptStrict (fun _ => rfl) (fun _ => rfl) ?_ fun start => ?_
  · exact bindStrict (Nat.le_succ n) (typeUse _) fun ts => pure _
  · refine bind (expectMark (by decide) (by decide)).relax fun _ => ?_
    refine bind (typeUse _).relax fun key => ?_
    refine bind (expectMark (by decide) (by decide)).relax fun _ => ?_
    refine bind (typeUse _).relax fun value => ?_
    exact bind (expectMark (by decide) (by decide)).relax fun stop => pure _

theorem field : Orderly n true field := by
  unfold Parser.field
  refine bind label? fun label => ?_
  refine bindStrict (Nat.le_succ n) fieldKind fun kind => ?_
  refine bind ident.relax fun name => ?_
  refine bind (expectMark (by decide) (by decide)).relax fun _ => ?_
  refine bind integer.relax fun number => ?_
  refine bind optionList? fun options => ?_
  exact bind (expectMark (by decide) (by decide)).relax fun stop => pure _

/-! ### Ranges and reservations -/

theorem numberRange : Orderly n true numberRange := by
  unfold Parser.numberRange
  refine bindStrict (Nat.le_succ n) integer fun start => ?_
  refine bind (acceptKeyword? _) fun found => ?_
  split
  · exact pure _
  · refine bind (acceptKeyword? _) fun found => ?_
    split
    · exact pure _
    · refine bind peek fun t? => ?_
      cases t? with
      | none => exact unexpected _
      | some t =>
          cases t with
          | int n => exact bind integer.relax fun stop => pure _
          | mark p =>
              cases p with
              | minus => exact bind integer.relax fun stop => pure _
              | _ => exact unexpected _
          | _ => exact unexpected _

theorem separatedTurn_progressive {item : Parser α} (hi : Orderly 0 true item) :
    Progressive (separatedTurn item) :=
  .item (by decide) (by decide) hi (fun _ => rfl) .stop

theorem separated {item : Parser α} (hi : ∀ m, Orderly m true item) :
    Orderly n true (separated item) := by
  unfold Parser.separated
  refine bindStrict (Nat.le_succ n) (hi n) fun first => ?_
  exact bind (items (by decide) (by decide) hi (fun _ => rfl) (fun _ => pure _)
    (separatedTurn_progressive (hi 0))) fun rest => pure _

theorem reservedName : Orderly n true reservedName := by
  unfold Parser.reservedName
  refine bind peek fun t? => ?_
  split
  · exact ident
  · exact textLiteral

theorem reservedStatement : Orderly n true reservedStatement := by
  unfold Parser.reservedStatement
  refine bindStrict (Nat.le_succ n) (expectKeyword _) fun start => ?_
  have hstop (kind : ReservedKind) : Orderly n false (do
      let stop ← Parser.expectMark .semicolon
      Pure.pure (⟨kind, start.through stop⟩ : Reserved)) :=
    bind (expectMark (by decide) (by decide)).relax fun stop => pure _
  have hranges : Orderly n true (do
      let ranges ← Parser.separated Parser.numberRange
      let kind ← Pure.pure (ReservedKind.ranges ranges)
      let stop ← Parser.expectMark .semicolon
      Pure.pure (⟨kind, start.through stop⟩ : Reserved)) :=
    bindStrict (Nat.le_succ n) (separated fun _ => numberRange) fun ranges => hstop _
  have hnames : Orderly n true (do
      let names ← Parser.separated Parser.reservedName
      let kind ← Pure.pure (ReservedKind.names names)
      let stop ← Parser.expectMark .semicolon
      Pure.pure (⟨kind, start.through stop⟩ : Reserved)) :=
    bindStrict (Nat.le_succ n) (separated fun _ => reservedName) fun names => hstop _
  refine bind peek fun t? => ?_
  cases t? with
  | none => exact bind (unexpected _) hstop
  | some t =>
      cases t with
      | int n => exact hranges.relax
      | string b => exact hnames.relax
      | ident w => exact hnames.relax
      | float x => exact bind (unexpected _) hstop
      | mark p =>
          cases p with
          | minus => exact hranges.relax
          | _ => exact bind (unexpected _) hstop

theorem extensionsStatement : Orderly n true extensionsStatement := by
  unfold Parser.extensionsStatement
  refine bindStrict (Nat.le_succ n) (expectKeyword _) fun start => ?_
  refine bind (separated fun _ => numberRange).relax fun ranges => ?_
  refine bind optionList? fun options => ?_
  exact bind (expectMark (by decide) (by decide)).relax fun stop => pure _

/-! ### Oneofs, extensions and enums -/

theorem oneofMember : Orderly n true oneofMember := by
  unfold Parser.oneofMember
  refine bind peekKeyword fun k? => ?_
  split
  · exact map _ optionStatement
  · refine bind peek fun t? => ?_
    split
    · exact map _ field
    · exact map _ field
    · exact unexpected _

theorem oneof : Orderly n true oneof := by
  unfold Parser.oneof
  refine bindStrict (Nat.le_succ n) (expectKeyword _) fun start => ?_
  refine bind ident.relax fun name => ?_
  exact bind (body _ oneofMember).relax fun members => pure _

theorem extendMember : Orderly n true extendMember := by
  unfold Parser.extendMember
  refine bind peek fun t? => ?_
  split
  · exact field
  · exact field
  · exact unexpected _

theorem extend : Orderly n true extend := by
  unfold Parser.extend
  refine bindStrict (Nat.le_succ n) (expectKeyword _) fun start => ?_
  refine bind (typeName _).relax fun extendee => ?_
  exact bind (body _ extendMember).relax fun fields => pure _

theorem enumValue : Orderly n true enumValue := by
  unfold Parser.enumValue
  refine bindStrict (Nat.le_succ n) ident fun name => ?_
  refine bind (expectMark (by decide) (by decide)).relax fun _ => ?_
  refine bind integer.relax fun number => ?_
  refine bind optionList? fun options => ?_
  exact bind (expectMark (by decide) (by decide)).relax fun stop => pure _

theorem enumMember : Orderly n true enumMember := by
  unfold Parser.enumMember
  refine bind peekKeyword fun k? => ?_
  split
  · exact map _ optionStatement
  · exact map _ reservedStatement
  · refine bind peek fun t? => ?_
    split
    · exact map _ enumValue
    · exact unexpected _

theorem enum : Orderly n true enum := by
  unfold Parser.enum
  refine bindStrict (Nat.le_succ n) (expectKeyword _) fun start => ?_
  refine bind ident.relax fun name => ?_
  exact bind (body _ enumMember).relax fun members => pure _

/-! ### Services -/

theorem methodMember : Orderly n true methodMember := by
  unfold Parser.methodMember
  refine bind peekKeyword fun k? => ?_
  split
  · exact optionStatement
  · exact unexpected _

theorem methodType : Orderly n true methodType := by
  unfold Parser.methodType
  refine bindStrict (Nat.le_succ n) (expectMark (by decide) (by decide)) fun _ => ?_
  refine bind (acceptKeyword? _) fun streaming => ?_
  refine bind (typeName _).relax fun type => ?_
  exact bind (expectMark (by decide) (by decide)).relax fun _ => pure _

theorem method : Orderly n true method := by
  unfold Parser.method
  refine bindStrict (Nat.le_succ n) (expectKeyword _) fun start => ?_
  refine bind ident.relax fun name => ?_
  refine bind methodType.relax fun input => ?_
  refine bind (expectKeyword _).relax fun _ => ?_
  refine bind methodType.relax fun output => ?_
  refine bind peek fun t? => ?_
  dsimp only
  split
  · refine bind (expectMark (by decide) (by decide)).relax fun s => ?_
    exact bind (pure _) fun ending => pure _
  · exact bind (body _ methodMember).relax fun ending => pure _
  · exact bind (unexpected _) fun ending => pure _

theorem serviceMember : Orderly n true serviceMember := by
  unfold Parser.serviceMember
  refine bind peekKeyword fun k? => ?_
  split
  · exact map _ optionStatement
  · exact map _ method
  · exact unexpected _

theorem service : Orderly n true service := by
  unfold Parser.service
  refine bindStrict (Nat.le_succ n) (expectKeyword _) fun start => ?_
  refine bind ident.relax fun name => ?_
  exact bind (body _ serviceMember).relax fun members => pure _

/-! ### Messages -/

theorem messageMember {nested : Parser Message}
    (hn : ∀ env r, r.lexemes ≠ [] → Ordered n true env r (nested env r)) :
    Orderly n true (messageMember nested) := by
  intro env r
  refine .dispatch fun k? p hp hk => ?_
  split at hp <;> subst hp
  · exact (hn env r.settle (hk nofun)).map _
  · exact map _ enum env _
  · exact map _ oneof env _
  · exact map _ extend env _
  · exact map _ optionStatement env _
  · exact map _ reservedStatement env _
  · exact map _ extensionsStatement env _
  · refine bind peek (fun t? => ?_) env _
    split
    · exact map _ field
    · exact map _ field
    · exact unexpected _

/--
The keyword of a message is one lexeme, so the budget suffices for the messages in it.
With nothing left there is no message, and it does not matter that the budget is spent.
-/
theorem messageWithin (budget : List Lexeme) :
    ∀ env r, r.lexemes ≠ [] →
      Ordered budget.length true env r (messageWithin budget env r) := by
  induction budget with
  | nil =>
      intro env r hr
      exact .exhausted (List.length_pos_iff.mpr hr)
  | cons l budget ih =>
      intro env r _
      have hp : Orderly (budget.length + 1) true (Parser.messageWithin (l :: budget)) := by
        refine bindStrict (Nat.le_refl _) (expectKeyword _) fun start => ?_
        refine bind ident.relax fun name => ?_
        exact bind (body _ (messageMember ih)).relax fun members => pure _
      exact hp env r

/-- So a message never lacks turns. -/
theorem message (env : Surroundings) (r : Remainder) (hr : r.lexemes ≠ []) :
    Ordered n true env r (message env r) := by
  have ho := messageWithin r.lexemes env r hr
  unfold Parser.message
  cases hrun : Parser.messageWithin r.lexemes env r with
  | done m r' =>
      rw [hrun] at ho
      cases ho with
      | done reads shorter => exact .done reads shorter
  | halted reason r' =>
      rw [hrun] at ho
      cases ho with
      | unexpected reads token => exact .unexpected reads token
      | silent inBody reads ends => exact .silent inBody reads ends
      | eof inBody reads ends => exact .eof inBody reads ends
      | unclosed reads ends mem => exact .unclosed reads ends mem
      | exhausted budget => exact absurd budget (Nat.lt_irrefl _)

/-! ### Statements -/

theorem dialectStatement : Orderly n true dialectStatement := by
  unfold Parser.dialectStatement
  refine bindStrict (Nat.le_succ n) (expectKeyword _) fun start => ?_
  refine bind (expectMark (by decide) (by decide)).relax fun _ => ?_
  refine bind stringLiteral.relax fun value => ?_
  dsimp only
  split
  · refine bind (report rfl) fun _ => ?_
    exact bind (expectMark (by decide) (by decide)).relax fun stop => pure _
  · exact bind (expectMark (by decide) (by decide)).relax fun stop => pure _

theorem packageStatement : Orderly n true packageStatement := by
  unfold Parser.packageStatement
  refine bindStrict (Nat.le_succ n) (expectKeyword _) fun start => ?_
  refine bind (dottedName _).relax fun name => ?_
  exact bind (expectMark (by decide) (by decide)).relax fun stop => pure _

theorem importKind? : Orderly n false importKind? := by
  unfold Parser.importKind?
  refine bind peekKeyword fun k? => ?_
  split
  · exact bind (expectKeyword _).relax fun s => pure _
  · exact bind (expectKeyword _).relax fun s => pure _
  · refine bind peek fun t? => ?_
    split
    · exact pure _
    · exact unexpected _

theorem importStatement : Orderly n true importStatement := by
  unfold Parser.importStatement
  refine bindStrict (Nat.le_succ n) (expectKeyword _) fun start => ?_
  refine bind importKind? fun kind => ?_
  refine bind textLiteral.relax fun path => ?_
  dsimp only
  split
  · refine bind (report rfl) fun _ => ?_
    exact bind (expectMark (by decide) (by decide)).relax fun stop => pure _
  · exact bind (expectMark (by decide) (by decide)).relax fun stop => pure _

theorem statement : Orderly n true statement := by
  intro env r
  refine .dispatch fun k? p hp hk => ?_
  split at hp <;> subst hp
  · exact dialectStatement env _
  · exact map _ packageStatement env _
  · exact map _ importStatement env _
  · exact map _ optionStatement env _
  · exact (message env r.settle (hk nofun)).map _
  · exact map _ enum env _
  · exact map _ extend env _
  · exact map _ service env _
  · exact unexpected _ env _

end Orderly

end ProtoSchema.Parser
