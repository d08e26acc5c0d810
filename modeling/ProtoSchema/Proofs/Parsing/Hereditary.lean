/-
What holds of the parts of a parser holds of the parser.

Productions are put together from a few parsers of single tokens by sequence, repetition and
recovery, and what they report themselves are a few kinds of diagnostics.  Many a property of a
parser says nothing about what it reads: it is established by the parts and passed on by the ways
to put them together.  Such a property is hereditary, and every production has it.

So the productions are gone through here once, for all of these properties.  The loop over the
statements of a file also reports what is wrong with the places of statements.  Those properties
that such reports have extend to it.
-/
import ProtoSchema.Proofs.Parsing.Orderly
import ProtoSchema.Grammar.File

namespace ProtoSchema

/-- Whether a diagnostic is one that productions find themselves. -/
def Diagnostic.isOfProduction : Diagnostic → Bool
  | invalidToken .. | invalidUtf8String _ | unexpectedToken .. | unexpectedEof .. | invalidImport _
  | negativeIdent _ | unterminatedBody .. | unknownSyntax .. => true
  | _ => false

namespace Parser

/-- A property that a parser has if the parsers have it of which it is made. -/
structure Hereditary (P : (α : Type) → Parser α → Prop) : Prop where
  pure {α : Type} (a : α) : P α (Pure.pure a)
  bind {α β : Type} {p : Parser α} {f : α → Parser β} :
    P α p → (∀ a, P β (f a)) → P β (p >>= f)
  halt {α : Type} (reason : Halt) : P α (halt reason)
  report (d : Diagnostic) : d.isOfProduction = true → P Unit (report d)
  peek : P (Option Token) peek
  accept? {α : Type} (want : Token → Span → Option α) : P (Option α) (accept? want)
  unexpected {α : Type} (e : Expectation) : P α (unexpected e)
  /-- Loops and nested messages get a budget. -/
  budgeted {α : Type} {p : List Lexeme → Parser α} :
    (∀ ls, P α (p ls)) → P α fun env r => p r.lexemes env r
  attempt {α : Type} {p : Parser α} : P α p → P (Option α) (attempt p)
  inside {α : Type} {p : Parser α} : P α p → P α (inside p)
  recover : P Unit recover
  blockEnd : P Span blockEnd
  trimmedSource (s : Span) : P String (trimmedSource s)

namespace Hereditary

variable {P : (α : Type) → Parser α → Prop} {α β : Type} (h : Hereditary P)

include h

/-! ### Sequences and single tokens -/

theorem map {p : Parser α} (f : α → β) (hp : P α p) : P β (f <$> p) := by
  rw [← bind_pure_comp]
  exact h.bind hp fun a => h.pure _

theorem peekKeyword : P _ peekKeyword := by
  unfold Parser.peekKeyword
  refine h.bind h.peek fun t? => ?_
  split
  · exact h.pure _
  · exact h.pure _

theorem require (e : Expectation) (want : Token → Span → Option α) : P α (require e want) := by
  unfold Parser.require
  refine h.bind (h.accept? want) fun found => ?_
  split
  · exact h.pure _
  · exact h.unexpected e

theorem acceptMark? (p : Punctuation) : P _ (acceptMark? p) := h.accept? _

theorem acceptKeyword? (k : Keyword) : P _ (acceptKeyword? k) := h.accept? _

theorem expectMark (p : Punctuation) : P _ (expectMark p) := by
  rw [expectMark_eq]
  exact h.require _ _

theorem expectKeyword (k : Keyword) : P _ (expectKeyword k) := by
  rw [expectKeyword_eq]
  exact h.require _ _

/-! ### Loops and bodies -/

theorem collect {turn : Parser (Turn α)} (ht : P _ turn) (budget : List Lexeme) :
    P _ (collect turn budget) := by
  induction budget with
  | nil =>
      refine h.bind ht fun t => ?_
      split
      · exact h.pure _
      · exact h.halt _
  | cons l budget ih =>
      refine h.bind ht fun t => ?_
      cases t with
      | stop => exact h.pure _
      | skip => exact ih
      | yield a => exact h.bind ih fun as => h.pure _

theorem many {turn : Parser (Turn α)} (ht : P _ turn) : P _ (many turn) :=
  h.budgeted (h.collect ht)

theorem evolve {turn : α → Parser (Option α)} (ht : ∀ a, P _ (turn a)) (budget : List Lexeme) :
    ∀ a, P _ (evolve turn budget a) := by
  induction budget with
  | nil =>
      intro a
      refine h.bind (ht a) fun next => ?_
      split
      · exact h.pure _
      · exact h.halt _
  | cons l budget ih =>
      intro a
      refine h.bind (ht a) fun next => ?_
      split
      · exact h.pure _
      · exact ih _

theorem iterate {turn : α → Parser (Option α)} (ht : ∀ a, P _ (turn a)) (a : α) :
    P _ (iterate turn a) := h.budgeted fun ls => h.evolve ht ls a

theorem body (kind : BodyKind) {member : Parser α} (hm : P _ member) : P _ (body kind member) := by
  unfold Parser.body
  refine h.bind (h.expectMark _) fun opening => ?_
  refine h.bind (h.inside (h.many ?_)) fun members => ?_
  · refine h.bind h.peek fun t? => ?_
    split
    · exact h.bind (h.report _ rfl) fun _ => h.halt _
    · exact h.pure _
    · exact h.bind (h.acceptMark? _) fun _ => h.pure _
    · refine h.bind (h.attempt hm) fun found => ?_
      split
      · exact h.pure _
      · exact h.bind h.recover fun _ => h.pure _
  · exact h.bind (h.expectMark _) fun closing => h.pure _

/-! ### Names and literals -/

theorem ident : P _ ident := h.require _ _

theorem dottedName (stop : Terminator) : P _ (dottedName stop) := by
  unfold Parser.dottedName
  refine h.bind h.ident fun first => h.bind (h.many ?_) fun rest => h.pure _
  refine h.bind (h.acceptMark? _) fun found => ?_
  split
  · exact h.bind h.ident fun word => h.pure _
  · refine h.bind h.peek fun t? => ?_
    split
    · split
      · exact h.pure _
      · exact h.unexpected _
    · exact h.unexpected _

theorem typeName (stop : Terminator) : P _ (typeName stop) := by
  unfold Parser.typeName
  refine h.bind h.peek fun t? => ?_
  split
  · exact h.bind (h.expectMark _) fun dot => h.bind (h.dottedName stop) fun name => h.pure _
  · exact h.bind (h.dottedName stop) fun name => h.pure _
  · exact h.unexpected _

theorem integer : P _ integer := by
  unfold Parser.integer
  refine h.bind (h.acceptMark? _) fun minus => h.bind (h.require _ _) fun ns => ?_
  split
  split
  · exact h.pure _
  · exact h.pure _

theorem stringLiteral : P _ stringLiteral := by
  unfold Parser.stringLiteral
  refine h.bind (h.require _ _) fun first => h.bind (h.many ?_) fun rest => h.pure _
  refine h.bind (h.accept? _) fun found => ?_
  split
  · exact h.pure _
  · exact h.pure _

theorem textLiteral : P _ textLiteral := by
  unfold Parser.textLiteral
  refine h.bind h.stringLiteral fun s => ?_
  split
  · exact h.pure _
  · exact h.bind (h.report _ rfl) fun _ => h.pure _

/-! ### Options -/

theorem signedValue (minus : Option Span) : P _ (signedValue minus) := by
  unfold Parser.signedValue
  refine h.bind (h.require _ _) fun value => ?_
  dsimp only
  split
  · split
    · exact h.pure _
    · exact h.bind (h.report _ rfl) fun _ => h.pure _
  · exact h.pure _

theorem aggregate : P _ aggregate := by
  unfold Parser.aggregate
  refine h.bind (h.expectMark _) fun opening => h.bind h.blockEnd fun closing => ?_
  exact h.bind (h.trimmedSource _) fun text => h.pure _

theorem optionValue : P _ optionValue := by
  unfold Parser.optionValue
  refine h.bind h.peek fun t? => ?_
  cases t? with
  | none => exact h.unexpected _
  | some t =>
      cases t with
      | ident word => exact h.bind h.ident fun name => h.pure _
      | string bytes => exact h.bind h.stringLiteral fun s => h.pure _
      | mark p =>
          cases p with
          | plus => exact h.bind (h.acceptMark? _) fun _ => h.signedValue none
          | minus => exact h.bind (h.expectMark _) fun minus => h.signedValue (some minus)
          | leftBrace => exact h.aggregate
          | _ => exact h.unexpected _
      | _ => exact h.signedValue none

theorem optionNamePart : P _ optionNamePart := by
  unfold Parser.optionNamePart
  refine h.bind h.peek fun t? => ?_
  split
  · refine h.bind (h.expectMark _) fun opening => h.bind (h.typeName _) fun name => ?_
    exact h.bind (h.expectMark _) fun closing => h.pure _
  · exact h.bind h.ident fun name => h.pure _
  · exact h.unexpected _

theorem optionSetting : P _ optionSetting := by
  unfold Parser.optionSetting
  refine h.bind h.optionNamePart fun first => ?_
  refine h.bind (h.many ?_) fun rest => h.bind h.optionValue fun value => h.pure _
  refine h.bind (h.acceptMark? _) fun found => ?_
  split
  · exact h.bind h.optionNamePart fun part => h.pure _
  · refine h.bind (h.acceptMark? _) fun found => ?_
    split
    · exact h.pure _
    · exact h.unexpected _

theorem optionStatement : P _ optionStatement := by
  unfold Parser.optionStatement
  refine h.bind (h.expectKeyword _) fun start => h.bind h.optionSetting fun setting => ?_
  exact h.bind (h.expectMark _) fun stop => h.pure _

theorem optionList : P _ optionList := by
  unfold Parser.optionList
  refine h.bind (h.expectMark _) fun opening => h.bind h.optionSetting fun first => ?_
  refine h.bind (h.many ?_) fun rest => h.bind (h.expectMark _) fun closing => h.pure _
  refine h.bind (h.acceptMark? _) fun found => ?_
  split
  · exact h.bind h.optionSetting fun setting => h.pure _
  · refine h.bind h.peek fun t? => ?_
    split
    · exact h.pure _
    · exact h.unexpected _

theorem optionList? : P _ optionList? := by
  unfold Parser.optionList?
  refine h.bind h.peek fun t? => ?_
  split
  · exact h.bind h.optionList fun list => h.pure _
  · exact h.pure _

/-! ### Fields, ranges and reservations -/

theorem typeUse (stop : Terminator) : P _ (typeUse stop) := by
  unfold Parser.typeUse
  refine h.bind (h.accept? _) fun found => ?_
  split
  · exact h.pure _
  · exact h.bind (h.typeName stop) fun name => h.pure _

theorem fieldKind : P _ fieldKind := by
  unfold Parser.fieldKind
  refine h.bind (h.acceptKeyword? _) fun found => ?_
  split
  · refine h.bind (h.expectMark _) fun _ => h.bind (h.typeUse _) fun key => ?_
    refine h.bind (h.expectMark _) fun _ => h.bind (h.typeUse _) fun value => ?_
    exact h.bind (h.expectMark _) fun stop => h.pure _
  · exact h.bind (h.typeUse _) fun type => h.pure _

theorem field : P _ field := by
  unfold Parser.field
  refine h.bind (h.accept? _) fun label => h.bind h.fieldKind fun kind => ?_
  refine h.bind h.ident fun name => h.bind (h.expectMark _) fun _ => ?_
  refine h.bind h.integer fun number => ?_
  exact h.bind h.optionList? fun options => h.bind (h.expectMark _) fun stop => h.pure _

theorem numberRange : P _ numberRange := by
  unfold Parser.numberRange
  refine h.bind h.integer fun start => h.bind (h.acceptKeyword? _) fun found => ?_
  split
  · exact h.pure _
  · refine h.bind (h.acceptKeyword? _) fun found => ?_
    split
    · exact h.pure _
    · refine h.bind h.peek fun t? => ?_
      cases t? with
      | none => exact h.unexpected _
      | some t =>
          cases t with
          | int n => exact h.bind h.integer fun stop => h.pure _
          | mark p =>
              cases p with
              | minus => exact h.bind h.integer fun stop => h.pure _
              | _ => exact h.unexpected _
          | _ => exact h.unexpected _

theorem separated {item : Parser α} (hi : P _ item) : P _ (separated item) := by
  unfold Parser.separated
  refine h.bind hi fun first => h.bind (h.many ?_) fun rest => h.pure _
  refine h.bind (h.acceptMark? _) fun found => ?_
  split
  · exact h.bind hi fun next => h.pure _
  · exact h.pure _

theorem reservedName : P _ reservedName := by
  unfold Parser.reservedName
  refine h.bind h.peek fun t? => ?_
  split
  · exact h.ident
  · exact h.textLiteral

theorem reservedStatement : P _ reservedStatement := by
  unfold Parser.reservedStatement
  refine h.bind (h.expectKeyword _) fun start => ?_
  have hstop (kind : ReservedKind) : P _ (do
      let stop ← Parser.expectMark .semicolon
      Pure.pure (⟨kind, start.through stop⟩ : Reserved)) :=
    h.bind (h.expectMark _) fun stop => h.pure _
  refine h.bind h.peek fun t? => ?_
  cases t? with
  | none => exact h.bind (h.unexpected _) hstop
  | some t =>
      cases t with
      | int n => exact h.bind (h.separated h.numberRange) fun ranges => hstop _
      | string bytes => exact h.bind (h.separated h.reservedName) fun names => hstop _
      | ident word => exact h.bind (h.separated h.reservedName) fun names => hstop _
      | mark p =>
          cases p with
          | minus => exact h.bind (h.separated h.numberRange) fun ranges => hstop _
          | _ => exact h.bind (h.unexpected _) hstop
      | float x => exact h.bind (h.unexpected _) hstop

theorem extensionsStatement : P _ extensionsStatement := by
  unfold Parser.extensionsStatement
  refine h.bind (h.expectKeyword _) fun start => ?_
  refine h.bind (h.separated h.numberRange) fun ranges => ?_
  exact h.bind h.optionList? fun options => h.bind (h.expectMark _) fun stop => h.pure _

/-! ### Oneofs, extensions and enums -/

theorem oneofMember : P _ oneofMember := by
  unfold Parser.oneofMember
  refine h.bind h.peekKeyword fun k? => ?_
  split
  · exact h.map _ h.optionStatement
  · refine h.bind h.peek fun t? => ?_
    split
    · exact h.map _ h.field
    · exact h.map _ h.field
    · exact h.unexpected _

theorem oneof : P _ oneof := by
  unfold Parser.oneof
  refine h.bind (h.expectKeyword _) fun start => h.bind h.ident fun name => ?_
  exact h.bind (h.body _ h.oneofMember) fun members => h.pure _

theorem extendMember : P _ extendMember := by
  unfold Parser.extendMember
  refine h.bind h.peek fun t? => ?_
  split
  · exact h.field
  · exact h.field
  · exact h.unexpected _

theorem extend : P _ extend := by
  unfold Parser.extend
  refine h.bind (h.expectKeyword _) fun start => h.bind (h.typeName _) fun extendee => ?_
  exact h.bind (h.body _ h.extendMember) fun fields => h.pure _

theorem enumValue : P _ enumValue := by
  unfold Parser.enumValue
  refine h.bind h.ident fun name => h.bind (h.expectMark _) fun _ => ?_
  refine h.bind h.integer fun number => ?_
  exact h.bind h.optionList? fun options => h.bind (h.expectMark _) fun stop => h.pure _

theorem enumMember : P _ enumMember := by
  unfold Parser.enumMember
  refine h.bind h.peekKeyword fun k? => ?_
  split
  · exact h.map _ h.optionStatement
  · exact h.map _ h.reservedStatement
  · refine h.bind h.peek fun t? => ?_
    split
    · exact h.map _ h.enumValue
    · exact h.unexpected _

theorem enum : P _ enum := by
  unfold Parser.enum
  refine h.bind (h.expectKeyword _) fun start => h.bind h.ident fun name => ?_
  exact h.bind (h.body _ h.enumMember) fun members => h.pure _

/-! ### Services -/

theorem methodMember : P _ methodMember := by
  unfold Parser.methodMember
  refine h.bind h.peekKeyword fun k? => ?_
  split
  · exact h.optionStatement
  · exact h.unexpected _

theorem methodType : P _ methodType := by
  unfold Parser.methodType
  refine h.bind (h.expectMark _) fun _ => h.bind (h.acceptKeyword? _) fun streaming => ?_
  exact h.bind (h.typeName _) fun type => h.bind (h.expectMark _) fun _ => h.pure _

theorem method : P _ method := by
  unfold Parser.method
  refine h.bind (h.expectKeyword _) fun start => h.bind h.ident fun name => ?_
  refine h.bind h.methodType fun input => h.bind (h.expectKeyword _) fun _ => ?_
  refine h.bind h.methodType fun output => h.bind h.peek fun t? => ?_
  dsimp only
  split
  · exact h.bind (h.expectMark _) fun s => h.bind (h.pure _) fun ending => h.pure _
  · exact h.bind (h.body _ h.methodMember) fun ending => h.pure _
  · exact h.bind (h.unexpected _) fun ending => h.pure _

theorem serviceMember : P _ serviceMember := by
  unfold Parser.serviceMember
  refine h.bind h.peekKeyword fun k? => ?_
  split
  · exact h.map _ h.optionStatement
  · exact h.map _ h.method
  · exact h.unexpected _

theorem service : P _ service := by
  unfold Parser.service
  refine h.bind (h.expectKeyword _) fun start => h.bind h.ident fun name => ?_
  exact h.bind (h.body _ h.serviceMember) fun members => h.pure _

/-! ### Messages -/

theorem messageMember {nested : Parser Message} (hn : P _ nested) :
    P _ (messageMember nested) := by
  unfold Parser.messageMember
  refine h.bind h.peekKeyword fun k? => ?_
  split
  · exact h.map _ hn
  · exact h.map _ h.enum
  · exact h.map _ h.oneof
  · exact h.map _ h.extend
  · exact h.map _ h.optionStatement
  · exact h.map _ h.reservedStatement
  · exact h.map _ h.extensionsStatement
  · refine h.bind h.peek fun t? => ?_
    split
    · exact h.map _ h.field
    · exact h.map _ h.field
    · exact h.unexpected _

theorem messageWithin (budget : List Lexeme) : P _ (messageWithin budget) := by
  induction budget with
  | nil => exact h.halt _
  | cons l budget ih =>
      refine h.bind (h.expectKeyword _) fun start => h.bind h.ident fun name => ?_
      exact h.bind (h.body _ (h.messageMember ih)) fun members => h.pure _

theorem message : P _ message := h.budgeted h.messageWithin

/-! ### Statements and files -/

theorem dialectStatement : P _ dialectStatement := by
  unfold Parser.dialectStatement
  refine h.bind (h.expectKeyword _) fun start => h.bind (h.expectMark _) fun _ => ?_
  refine h.bind h.stringLiteral fun value => ?_
  dsimp only
  split
  · exact h.bind (h.report _ rfl) fun _ => h.bind (h.expectMark _) fun stop => h.pure _
  · exact h.bind (h.expectMark _) fun stop => h.pure _

theorem packageStatement : P _ packageStatement := by
  unfold Parser.packageStatement
  refine h.bind (h.expectKeyword _) fun start => h.bind (h.dottedName _) fun name => ?_
  exact h.bind (h.expectMark _) fun stop => h.pure _

theorem importKind? : P _ importKind? := by
  unfold Parser.importKind?
  refine h.bind h.peekKeyword fun k? => ?_
  split
  · exact h.bind (h.expectKeyword _) fun s => h.pure _
  · exact h.bind (h.expectKeyword _) fun s => h.pure _
  · refine h.bind h.peek fun t? => ?_
    split
    · exact h.pure _
    · exact h.unexpected _

theorem importStatement : P _ importStatement := by
  unfold Parser.importStatement
  refine h.bind (h.expectKeyword _) fun start => h.bind h.importKind? fun kind => ?_
  refine h.bind h.textLiteral fun path => ?_
  dsimp only
  split
  · exact h.bind (h.report _ rfl) fun _ => h.bind (h.expectMark _) fun stop => h.pure _
  · exact h.bind (h.expectMark _) fun stop => h.pure _

theorem statement : P _ statement := by
  unfold Parser.statement
  refine h.bind h.peekKeyword fun k? => ?_
  split
  · exact h.dialectStatement
  · exact h.map _ h.packageStatement
  · exact h.map _ h.importStatement
  · exact h.map _ h.optionStatement
  · exact h.map _ h.message
  · exact h.map _ h.enum
  · exact h.map _ h.extend
  · exact h.map _ h.service
  · exact h.unexpected _

/-! ### Files -/

theorem reportAll (ds : List Diagnostic) (hds : ∀ d ∈ ds, P _ (Parser.report d)) :
    P _ (reportAll ds) := by
  induction ds with
  | nil => exact h.pure _
  | cons d ds ih =>
      obtain ⟨hd, hds⟩ := List.forall_mem_cons.mp hds
      exact h.bind hd fun _ => ih hds

variable (hplace : ∀ (file : File) (first : Bool) (st : Statement),
  ∀ d ∈ (file.place first st).2, P _ (Parser.report d))

include hplace

theorem nextStatement (draft : Draft) : P _ (nextStatement draft) := by
  unfold Parser.nextStatement
  refine h.bind h.peek fun t? => ?_
  split
  · exact h.pure _
  · exact h.bind (h.acceptMark? _) fun _ => h.pure _
  · refine h.bind (h.attempt h.statement) fun found => ?_
    split
    · rename_i st
      exact h.bind (h.reportAll _ (hplace draft.file draft.first st)) fun _ => h.pure _
    · dsimp only
      split
      · exact h.bind (h.acceptMark? _) fun _ => h.pure _
      · exact h.bind h.recover fun _ => h.pure _

theorem file : P _ file := by
  unfold Parser.file
  exact h.bind (h.iterate (h.nextStatement hplace) _) fun draft => h.pure _

end Hereditary

end Parser

end ProtoSchema
