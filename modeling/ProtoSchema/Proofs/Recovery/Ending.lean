/-
Every statement takes its semicolon last.

The proofs follow the productions.  A part of a statement is confined to the stretch because
its parts are; a statement ends with the semicolon and takes nothing behind it.  A
declaration with a body never gets as far as its body, since there is no brace to open it.
-/
import ProtoSchema.Grammar.File
import ProtoSchema.Proofs.Recovery.Confined

namespace ProtoSchema.Parser.Bounded

variable {α : Type} {w : Stretch}

/-! ### Options -/

theorem signedValue {minus : Option Span} (hm : ∀ s, minus = some s → ∃ t, .token t s ∈ w.tokens) :
    Confined w (signedValue minus) := by
  unfold Parser.signedValue
  refine bind (require (fun _ => rfl) fun _ => rfl) fun value hvalue => ?_
  dsimp only
  split
  · rename_i name s
    split
    · exact pure trivial
    · refine seq (report rfl ?_) fun _ => pure trivial
      -- The sign was there, so the word stands behind it.
      obtain ⟨t, s', hmem, hform⟩ := hvalue
      cases t with
      | ident word =>
          cases minus with
          | none => cases hform
          | some m =>
              cases hform
              obtain ⟨u, hu⟩ := hm m rfl
              exact ⟨u, m, _, s', hu, hmem, rfl⟩
      | _ => cases hform
  · exact pure trivial

theorem optionValue : Confined w optionValue := by
  unfold Parser.optionValue
  refine seq peek fun t? => ?_
  cases t? with
  | none => exact unexpected _
  | some t =>
      cases t with
      | ident word => exact seq ident fun name => pure trivial
      | int n => exact signedValue nofun
      | float x => exact signedValue nofun
      | string b => exact seq (relax stringLiteral) fun s => pure trivial
      | mark p =>
          cases p with
          | plus => exact seq (acceptMark? (by decide) (by decide)) fun _ => signedValue nofun
          | minus =>
              refine bind (expectMarkAt (by decide) (by decide)) fun minus hminus => ?_
              refine signedValue fun s hs => ?_
              cases hs
              exact hminus
          | leftBrace => exact leftBrace _
          | _ => exact unexpected _

theorem optionNamePart : Confined w optionNamePart := by
  unfold Parser.optionNamePart
  refine seq peek fun t? => ?_
  split
  · refine seq (expectMark (by decide) (by decide)) fun opening => ?_
    refine seq (typeName _) fun name => ?_
    exact seq (expectMark (by decide) (by decide)) fun closing => pure trivial
  · exact seq ident fun name => pure trivial
  · exact unexpected _

theorem optionSetting : Confined w optionSetting := by
  rw [optionSetting_eq]
  refine seq optionNamePart fun first => ?_
  refine seq (many ?_) fun rest => seq optionValue fun value => pure trivial
  unfold optionNameTurn
  refine seq (acceptMark? (by decide) (by decide)) fun found => ?_
  split
  · exact seq optionNamePart fun part => pure trivial
  · refine seq (acceptMark? (by decide) (by decide)) fun found => ?_
    split
    · exact pure trivial
    · exact unexpected _

theorem optionStatement : Ending w optionStatement := by
  unfold Parser.optionStatement
  refine seq (expectKeyword _) fun start => ?_
  exact seq optionSetting fun setting => semicolon _

theorem optionList : Confined w optionList := by
  rw [optionList_eq]
  refine seq (expectMark (by decide) (by decide)) fun opening => ?_
  refine seq optionSetting fun first => ?_
  refine seq (many ?_) fun rest =>
    seq (expectMark (by decide) (by decide)) fun closing => pure trivial
  unfold optionListTurn
  refine seq (acceptMark? (by decide) (by decide)) fun found => ?_
  split
  · exact seq optionSetting fun setting => pure trivial
  · refine seq peek fun t? => ?_
    split
    · exact pure trivial
    · exact unexpected _

theorem optionList? : Confined w optionList? := by
  unfold Parser.optionList?
  refine seq peek fun t? => ?_
  split
  · exact seq optionList fun list => pure trivial
  · exact pure trivial

/-! ### Fields -/

theorem label? : Confined w label? := relax (accept? (fun _ => rfl) fun _ => rfl)

theorem typeUse (stop : Terminator) : Confined w (typeUse stop) := by
  unfold Parser.typeUse
  refine seq (relax (accept? (fun _ => rfl) fun _ => rfl)) fun found => ?_
  split
  · exact pure trivial
  · exact seq (typeName stop) fun name => pure trivial

theorem fieldKind : Confined w fieldKind := by
  unfold Parser.fieldKind
  refine seq (acceptKeyword? _) fun found => ?_
  split
  · refine seq (expectMark (by decide) (by decide)) fun _ => ?_
    refine seq (typeUse _) fun key => ?_
    refine seq (expectMark (by decide) (by decide)) fun _ => ?_
    refine seq (typeUse _) fun value => ?_
    exact seq (expectMark (by decide) (by decide)) fun stop => pure trivial
  · exact seq (typeUse _) fun ts => pure trivial

theorem field : Ending w field := by
  unfold Parser.field
  refine seq label? fun label => ?_
  refine seq fieldKind fun kind => ?_
  refine seq ident fun name => ?_
  refine seq (expectMark (by decide) (by decide)) fun _ => ?_
  refine seq integer fun number => ?_
  exact seq optionList? fun options => semicolon _

/-! ### Ranges and reservations -/

theorem numberRange : Confined w numberRange := by
  unfold Parser.numberRange
  refine seq integer fun start => ?_
  refine seq (acceptKeyword? _) fun found => ?_
  split
  · exact pure trivial
  · refine seq (acceptKeyword? _) fun found => ?_
    split
    · exact pure trivial
    · refine seq peek fun t? => ?_
      cases t? with
      | none => exact unexpected _
      | some t =>
          cases t with
          | int n => exact seq integer fun stop => pure trivial
          | mark p =>
              cases p with
              | minus => exact seq integer fun stop => pure trivial
              | _ => exact unexpected _
          | _ => exact unexpected _

theorem separated {item : Parser α} (hi : Confined w item) : Confined w (separated item) := by
  rw [separated_eq]
  refine seq hi fun first => seq (many ?_) fun rest => pure trivial
  unfold separatedTurn
  refine seq (acceptMark? (by decide) (by decide)) fun found => ?_
  split
  · exact seq hi fun next => pure trivial
  · exact pure trivial

theorem reservedName : Confined w reservedName := by
  unfold Parser.reservedName
  refine seq peek fun t? => ?_
  split
  · exact ident
  · exact relax textLiteral

theorem reservedStatement : Ending w reservedStatement := by
  unfold Parser.reservedStatement
  refine seq (expectKeyword _) fun start => ?_
  have hstop (kind : ReservedKind) : Ending w (do
      let stop ← Parser.expectMark .semicolon
      Pure.pure (⟨kind, start.through stop⟩ : Reserved)) := semicolon _
  have hranges : Ending w (do
      let ranges ← Parser.separated Parser.numberRange
      let kind ← Pure.pure (ReservedKind.ranges ranges)
      let stop ← Parser.expectMark .semicolon
      Pure.pure (⟨kind, start.through stop⟩ : Reserved)) :=
    seq (separated numberRange) fun ranges => hstop _
  have hnames : Ending w (do
      let names ← Parser.separated Parser.reservedName
      let kind ← Pure.pure (ReservedKind.names names)
      let stop ← Parser.expectMark .semicolon
      Pure.pure (⟨kind, start.through stop⟩ : Reserved)) :=
    seq (separated reservedName) fun names => hstop _
  refine seq peek fun t? => ?_
  cases t? with
  | none => exact seq (unexpected _) hstop
  | some t =>
      cases t with
      | int n => exact hranges
      | string b => exact hnames
      | ident w => exact hnames
      | float x => exact seq (unexpected _) hstop
      | mark p =>
          cases p with
          | minus => exact hranges
          | _ => exact seq (unexpected _) hstop

theorem extensionsStatement : Ending w extensionsStatement := by
  unfold Parser.extensionsStatement
  refine seq (expectKeyword _) fun start => ?_
  refine seq (separated numberRange) fun ranges => ?_
  exact seq optionList? fun options => semicolon _

/-! ### Oneofs, extensions and enums -/

theorem oneofMember : Ending w oneofMember := by
  unfold Parser.oneofMember
  refine seq peekKeyword fun k? => ?_
  split
  · exact map _ optionStatement
  · refine seq peek fun t? => ?_
    split
    · exact map _ field
    · exact map _ field
    · exact unexpected _

theorem oneof : Ending w oneof := by
  unfold Parser.oneof
  refine seq (expectKeyword _) fun start => ?_
  exact seq ident fun name => body _ _ _

theorem extendMember : Ending w extendMember := by
  unfold Parser.extendMember
  refine seq peek fun t? => ?_
  split
  · exact field
  · exact field
  · exact unexpected _

theorem extend : Ending w extend := by
  unfold Parser.extend
  refine seq (expectKeyword _) fun start => ?_
  exact seq (typeName _) fun extendee => body _ _ _

theorem enumValue : Ending w enumValue := by
  unfold Parser.enumValue
  refine seq ident fun name => ?_
  refine seq (expectMark (by decide) (by decide)) fun _ => ?_
  refine seq integer fun number => ?_
  exact seq optionList? fun options => semicolon _

theorem enumMember : Ending w enumMember := by
  unfold Parser.enumMember
  refine seq peekKeyword fun k? => ?_
  split
  · exact map _ optionStatement
  · exact map _ reservedStatement
  · refine seq peek fun t? => ?_
    split
    · exact map _ enumValue
    · exact unexpected _

theorem enum : Ending w enum := by
  unfold Parser.enum
  refine seq (expectKeyword _) fun start => ?_
  exact seq ident fun name => body _ _ _

/-! ### Services -/

theorem methodMember : Ending w methodMember := by
  unfold Parser.methodMember
  refine seq peekKeyword fun k? => ?_
  split
  · exact optionStatement
  · exact unexpected _

theorem methodType : Confined w methodType := by
  unfold Parser.methodType
  refine seq (expectMark (by decide) (by decide)) fun _ => ?_
  refine seq (acceptKeyword? _) fun streaming => ?_
  refine seq (typeName _) fun type => ?_
  exact seq (expectMark (by decide) (by decide)) fun _ => pure trivial

theorem method : Ending w method := by
  unfold Parser.method
  refine seq (expectKeyword _) fun start => ?_
  refine seq ident fun name => ?_
  refine seq methodType fun input => ?_
  refine seq (expectKeyword _) fun _ => ?_
  refine seq methodType fun output => ?_
  refine seq peek fun t? => ?_
  dsimp only
  split
  · exact semicolon _
  · exact body _ _ _
  · rw [unexpected_bind]
    exact unexpected _

theorem serviceMember : Ending w serviceMember := by
  unfold Parser.serviceMember
  refine seq peekKeyword fun k? => ?_
  split
  · exact map _ optionStatement
  · exact map _ method
  · exact unexpected _

theorem service : Ending w service := by
  unfold Parser.service
  refine seq (expectKeyword _) fun start => ?_
  exact seq ident fun name => body _ _ _

/-! ### Messages -/

/-- Without a brace no message is nested in a message, whatever the budget. -/
theorem messageWithin (budget : List Lexeme) : Ending w (messageWithin budget) := by
  cases budget with
  | nil => exact halt_exhausted
  | cons l budget =>
      unfold Parser.messageWithin
      refine seq (expectKeyword _) fun start => ?_
      exact seq ident fun name => body _ _ _

theorem message : Ending w message := fun env r => messageWithin r.lexemes env r

theorem messageMember {nested : Parser Message} (hn : Ending w nested) :
    Ending w (messageMember nested) := by
  unfold Parser.messageMember
  refine seq peekKeyword fun k? => ?_
  split
  · exact map _ hn
  · exact map _ enum
  · exact map _ oneof
  · exact map _ extend
  · exact map _ optionStatement
  · exact map _ reservedStatement
  · exact map _ extensionsStatement
  · refine seq peek fun t? => ?_
    split
    · exact map _ field
    · exact map _ field
    · exact unexpected _

/-! ### Statements -/

theorem dialectStatement : Ending w dialectStatement := by
  unfold Parser.dialectStatement
  refine seq (expectKeyword _) fun start => ?_
  refine seq (expectMark (by decide) (by decide)) fun _ => ?_
  refine bind stringLiteral fun value hvalue => ?_
  dsimp only
  split
  · exact seq (report rfl hvalue) fun _ => semicolon _
  · exact semicolon _

theorem packageStatement : Ending w packageStatement := by
  unfold Parser.packageStatement
  refine seq (expectKeyword _) fun start => ?_
  exact seq (dottedName _) fun name => semicolon _

theorem importKind? : Confined w importKind? := by
  unfold Parser.importKind?
  refine seq peekKeyword fun k? => ?_
  split
  · exact seq (expectKeyword _) fun s => pure trivial
  · exact seq (expectKeyword _) fun s => pure trivial
  · refine seq peek fun t? => ?_
    split
    · exact pure trivial
    · exact unexpected _

theorem importStatement : Ending w importStatement := by
  unfold Parser.importStatement
  refine seq (expectKeyword _) fun start => ?_
  refine seq importKind? fun kind => ?_
  refine bind textLiteral fun path hpath => ?_
  dsimp only
  split
  · exact seq (report rfl hpath) fun _ => semicolon _
  · exact semicolon _

theorem statement : Ending w statement := by
  unfold Parser.statement
  refine seq peekKeyword fun k? => ?_
  split
  · exact dialectStatement
  · exact map _ packageStatement
  · exact map _ importStatement
  · exact map _ optionStatement
  · exact map _ message
  · exact map _ enum
  · exact map _ extend
  · exact map _ service
  · exact unexpected _

end ProtoSchema.Parser.Bounded
