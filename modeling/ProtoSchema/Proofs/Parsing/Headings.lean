/-
The choice of a dialect and the package statement by their tokens.

Both are an opening, a row of items, and a semicolon.  `DialectForm` and `PackageForm` say so of
the lexemes alone.  A loop of the parser that takes an item if there is one, and stops before a
semicolon (`TurnOf`), takes exactly the items up to the next semicolon.  So the two productions
take what has the form, and nothing else, and there is only one way to read it.
-/
import ProtoSchema.Proofs.Parsing.Oblivious
import ProtoSchema.Proofs.Parsing.Productions

namespace ProtoSchema

/-! ### Two statements by their tokens -/

/-- Items one after the other up to a semicolon, and where that stands. -/
inductive Items {α : Type} (Item : List Lexeme → α → List Lexeme → Prop) :
    List Lexeme → List α → Span → List Lexeme → Prop
  | nil {ls rest : List Lexeme} {stop : Span} :
      ahead ls = .token (.mark .semicolon) stop :: rest → Items Item ls [] stop rest
  | cons {ls mid rest : List Lexeme} {a : α} {as : List α} {stop : Span} :
      Item ls a mid → Items Item mid as stop rest → Items Item ls (a :: as) stop rest

/-- A string literal comes next. -/
def LiteralNext (ls : List Lexeme) (s : StringLiteral) (rest : List Lexeme) : Prop :=
  ahead ls = .token (.string s.bytes) s.span :: rest

/-- A word comes next. -/
def WordNext (ls : List Lexeme) (w : Ident) (rest : List Lexeme) : Prop :=
  ahead ls = .token (.ident w.text) w.span :: rest

/-- A dot comes next, and then a word. -/
def DottedNext (ls : List Lexeme) (w : Ident) (rest : List Lexeme) : Prop :=
  ∃ dot mid, ahead ls = .token (.mark .dot) dot :: mid ∧ WordNext mid w rest

/-- A well-formed choice of a dialect, by its value and where it stands. -/
inductive DialectForm : List Lexeme → (value : List UInt8) → Span → List Lexeme → Prop
  | mk {ls ls₁ ls₂ ls₃ rest : List Lexeme} {start equals stop : Span} {first : StringLiteral}
      {others : List StringLiteral} :
      ahead ls = .token (.ident "syntax") start :: ls₁ →
      ahead ls₁ = .token (.mark .equals) equals :: ls₂ →
      LiteralNext ls₂ first ls₃ → Items LiteralNext ls₃ others stop rest →
      DialectForm ls (first.bytes ++ others.flatMap StringLiteral.bytes) (start.through stop) rest

/-- A well-formed package statement. -/
inductive PackageForm : List Lexeme → Package → List Lexeme → Prop
  | mk {ls ls₁ ls₂ rest : List Lexeme} {start stop : Span} {first : Ident} {others : List Ident} :
      ahead ls = .token (.ident "package") start :: ls₁ →
      WordNext ls₁ first ls₂ → Items DottedNext ls₂ others stop rest →
      PackageForm ls ⟨⟨first, others⟩, start.through stop⟩ rest

/-! ### The parser on the two statements -/

theorem length_lt_of_ahead {ls rest : List Lexeme} {l : Lexeme} (h : ahead ls = l :: rest) :
    rest.length < ls.length := by
  have hle : (ahead ls).length ≤ ls.length := (List.dropWhile_sublist _).length_le
  rw [h, List.length_cons] at hle
  omega

namespace Parser

open Takes

variable {α : Type} {env : Surroundings} {ls mid rest : List Lexeme} {stop : Span}

/-- A turn of a loop that takes an item if there is one, and stops before a semicolon. -/
structure TurnOf (Item : List Lexeme → α → List Lexeme → Prop) (turn : Parser (Turn α)) : Prop where
  oblivious : Oblivious turn
  cases {env : Surroundings} {ls rest : List Lexeme} {t : Turn α} : Takes turn env ls t rest →
    t = .stop ∧ rest = ahead ls ∨ ∃ a, t = .yield a ∧ Item ls a rest
  item {ls rest : List Lexeme} {a : α} (env : Surroundings) : Item ls a rest →
    Takes turn env ls (.yield a) rest
  stops {ls rest : List Lexeme} {s : Span} (env : Surroundings) :
    ahead ls = .token (.mark .semicolon) s :: rest → Takes turn env ls .stop (ahead ls)
  shorter {ls rest : List Lexeme} {a : α} : Item ls a rest → rest.length < ls.length

namespace TurnOf

variable {Item : List Lexeme → α → List Lexeme → Prop} {turn : Parser (Turn α)} {as : List α}
  (h : TurnOf Item turn)

include h

/-- What is taken up to a semicolon are items. -/
theorem items (budget : List Lexeme) : ∀ {ls : List Lexeme} {as : List α},
    Takes (collect turn budget) env ls as mid → ahead mid = .token (.mark .semicolon) stop :: rest →
    Items Item ls as stop rest := by
  induction budget with
  | nil =>
      intro ls as htakes hmid
      rcases collect_cases h.oblivious htakes with ⟨hturn, rfl⟩ | ⟨_, _, _, hb, -⟩
      · rcases h.cases hturn with ⟨-, rfl⟩ | ⟨a, ha, -⟩
        · exact .nil (by rw [← ahead_ahead, hmid])
        · cases ha
      · cases hb
  | cons l budget ih =>
      intro ls as htakes hmid
      rcases collect_cases h.oblivious htakes with ⟨hturn, rfl⟩ | ⟨_, _, ls', hb, hgo⟩
      · rcases h.cases hturn with ⟨-, rfl⟩ | ⟨a, ha, -⟩
        · exact .nil (by rw [← ahead_ahead, hmid])
        · cases ha
      · cases hb
        rcases hgo with ⟨hturn, -⟩ | ⟨a, as', rfl, hturn, hrest⟩
        · rcases h.cases hturn with ⟨ha, -⟩ | ⟨a, ha, -⟩
          · cases ha
          · cases ha
        · rcases h.cases hturn with ⟨ha, -⟩ | ⟨a, ha, hitem⟩
          · cases ha
          · cases ha
            exact .cons hitem (ih hrest hmid)

/-- Items up to a semicolon are taken, if there are turns enough. -/
theorem collect (env : Surroundings) (hitems : Items Item ls as stop rest) :
    ∀ budget : List Lexeme, ls.length ≤ budget.length → ∃ mid,
      Takes (collect turn budget) env ls as mid ∧
        ahead mid = .token (.mark .semicolon) stop :: rest := by
  induction hitems with
  | nil hstop =>
      intro budget _
      exact ⟨_, Takes.collect_stop (h.stops env hstop), by rw [ahead_ahead, hstop]⟩
  | cons hitem _ ih =>
      intro budget hlen
      have hlt := h.shorter hitem
      cases budget with
      | nil =>
          rw [List.length_nil] at hlen
          omega
      | cons l budget =>
          rw [List.length_cons] at hlen
          obtain ⟨mid, hrest, hmid⟩ := ih budget (by omega)
          exact ⟨mid, Takes.collect_yield h.oblivious (h.item env hitem) hrest, hmid⟩

/-- Items up to a semicolon, and the semicolon, are there in one way only. -/
theorem unique {as' : List α} {stop' : Span} {rest' : List Lexeme}
    (hitems : Items Item ls as stop rest) (hitems' : Items Item ls as' stop' rest') :
    as' = as ∧ stop' = stop ∧ rest' = rest := by
  obtain ⟨mid, htakes, hmid⟩ := h.collect ⟨[], false⟩ hitems ls (Nat.le_refl _)
  obtain ⟨mid', htakes', hmid'⟩ := h.collect ⟨[], false⟩ hitems' ls (Nat.le_refl _)
  obtain ⟨rfl, rfl⟩ := htakes.unique htakes'
  rw [hmid] at hmid'
  cases hmid'
  exact ⟨rfl, rfl, rfl⟩

end TurnOf

theorem ident_iff {w : Ident} : Takes ident env ls w rest ↔ WordNext ls w rest := by
  unfold ident
  rw [require_iff]
  constructor
  · rintro ⟨t, s, h, hw⟩
    cases t with
    | ident word =>
        cases hw
        exact h
    | _ => cases hw
  · intro h
    exact ⟨_, _, h, rfl⟩

theorem literal_iff {s : StringLiteral} {e : Expectation} :
    Takes (require e quoted?) env ls s rest ↔ LiteralNext ls s rest := by
  rw [require_iff]
  constructor
  · rintro ⟨t, s', h, hs⟩
    cases t with
    | string bytes =>
        cases hs
        exact h
    | _ => cases hs
  · intro h
    exact ⟨_, _, h, rfl⟩

theorem acceptMark?_iff {p : Punctuation} {s : Span} :
    Takes (acceptMark? p) env ls (some s) rest ↔ ahead ls = .token (.mark p) s :: rest := by
  unfold acceptMark?
  rw [accept?_iff]
  constructor
  · rintro ⟨t, s', h, hw⟩
    by_cases ht : t = .mark p
    · rw [if_pos ht] at hw
      rw [h, ht, Option.some.inj hw]
    · rw [if_neg ht] at hw
      cases hw
  · intro h
    exact ⟨_, _, h, if_pos rfl⟩

theorem turnOf_string : TurnOf LiteralNext stringTurn where
  oblivious := by
    unfold stringTurn
    refine Oblivious.bind (Oblivious.accept? _) fun found => ?_
    cases found with
    | none => exact Oblivious.hereditary.pure _
    | some s => exact Oblivious.hereditary.pure _
  cases := by
    rintro env ls rest t ⟨log, hrun⟩
    obtain ⟨found, ⟨mid, log'⟩, haccept, hrest⟩ := done_of_bind hrun
    cases found with
    | none =>
        cases hrest
        exact .inl ⟨rfl, (accept?_none_iff.mp ⟨_, haccept⟩).1⟩
    | some s =>
        cases hrest
        obtain ⟨t, s', ht, hs⟩ := accept?_iff.mp ⟨_, haccept⟩
        cases t with
        | string bytes =>
            cases hs
            exact .inr ⟨_, rfl, ht⟩
        | _ => cases hs
  item {ls rest s} env h := by
    obtain ⟨log, hrun⟩ : Takes (accept? quoted?) env ls (some s) rest :=
      accept?_iff.mpr ⟨_, _, h, rfl⟩
    exact ⟨log, bind_done hrun⟩
  stops {ls rest s} env h := by
    obtain ⟨log, hrun⟩ : Takes (accept? quoted?) env ls none (ahead ls) := by
      refine accept?_none_iff.mpr ⟨rfl, fun t s' behind ht => ?_⟩
      rw [h] at ht
      cases ht
      rfl
    exact ⟨log, bind_done hrun⟩
  shorter h := length_lt_of_ahead h

theorem turnOf_name : TurnOf DottedNext (nameTurn (.mark .semicolon)) where
  oblivious := by
    unfold nameTurn
    refine Oblivious.bind (Oblivious.accept? _) fun found => ?_
    cases found with
    | some s => exact Oblivious.bind Oblivious.hereditary.ident fun w => Oblivious.hereditary.pure _
    | none =>
        refine Oblivious.bind Oblivious.peek fun t? => ?_
        cases t? with
        | none => exact Oblivious.unexpected _
        | some t =>
            dsimp only
            split
            · exact Oblivious.hereditary.pure _
            · exact Oblivious.unexpected _
  cases := by
    rintro env ls rest t ⟨log, hrun⟩
    obtain ⟨found, ⟨mid, log'⟩, haccept, hrest⟩ := done_of_bind hrun
    cases found with
    | some dot =>
        obtain ⟨w, ⟨rest', log''⟩, hword, hpure⟩ := done_of_bind hrest
        cases hpure
        exact .inr ⟨w, rfl, dot, mid, acceptMark?_iff.mp ⟨_, haccept⟩,
          ident_iff.mp (of_done Oblivious.hereditary.ident hword)⟩
    | none =>
        obtain ⟨rfl, -⟩ := accept?_none_iff.mp ⟨_, haccept⟩
        obtain ⟨t?, ⟨mid, log''⟩, hpeek, hstop⟩ := done_of_bind hrest
        obtain ⟨-, rfl⟩ := peek_iff.mp (of_done Oblivious.peek hpeek)
        -- A turn that is done has not reported, so what it stops at is the semicolon.
        have hnot {e : Expectation} :
            ¬ Parser.unexpected e env ⟨ahead (ahead ls), log''⟩ = .done t ⟨rest, log⟩ :=
          fun h => not_unexpected (of_done (Oblivious.unexpected e) h)
        cases t? with
        | none => exact (hnot hstop).elim
        | some t' =>
            dsimp only at hstop
            split at hstop
            · cases hstop
              exact .inl ⟨rfl, ahead_ahead ls⟩
            · exact (hnot hstop).elim
  item := by
    rintro ls rest w env ⟨dot, mid, hdot, hword⟩
    obtain ⟨log, haccept⟩ : Takes (acceptMark? .dot) env ls (some dot) mid := acceptMark?_iff.mpr hdot
    obtain ⟨log', hident⟩ := (ident_iff.mpr hword : Takes ident env mid w rest).done
      Oblivious.hereditary.ident log
    refine ⟨log', (bind_done haccept).trans ?_⟩
    exact bind_done hident
  stops {ls rest s} env h := by
    obtain ⟨log, haccept⟩ : Takes (acceptMark? .dot) env ls none (ahead ls) := by
      refine accept?_none_iff.mpr ⟨rfl, fun t s' behind ht => ?_⟩
      rw [h] at ht
      cases ht
      rfl
    have hpeek : peek env ⟨ahead ls, log⟩ = .done (some (.mark .semicolon)) ⟨ahead ls, log⟩ := by
      rw [h]
      rfl
    refine ⟨log, (bind_done haccept).trans ?_⟩
    exact bind_done hpeek
  shorter := by
    rintro ls rest w ⟨dot, mid, hdot, hword⟩
    exact Nat.lt_trans (length_lt_of_ahead hword) (length_lt_of_ahead hdot)

/-- Something first and items behind it, up to a semicolon. -/
theorem TurnOf.row_iff {β γ : Type} {Item : List Lexeme → α → List Lexeme → Prop}
    {turn : Parser (Turn α)} (h : TurnOf Item turn) {first : Parser β}
    {First : List Lexeme → β → List Lexeme → Prop}
    (hfirst : ∀ {ls b rest}, Takes first env ls b rest ↔ First ls b rest) (f : β → List α → γ)
    {c : γ} :
    (∃ mid, Takes (first >>= fun b => many turn >>= fun as => pure (f b as)) env ls c mid ∧
        ahead mid = .token (.mark .semicolon) stop :: rest) ↔
      ∃ b as behind, First ls b behind ∧ Items Item behind as stop rest ∧ c = f b as := by
  have o := Oblivious.hereditary
  have hmany : Oblivious (many turn) := o.many h.oblivious
  simp only [bind_iff fun _ => o.bind hmany fun _ => o.pure _, bind_iff fun _ => o.pure _, hfirst,
    pure_iff]
  constructor
  · rintro ⟨_, ⟨b, behind, hb, as, mid, has, rfl, rfl⟩, hstop⟩
    exact ⟨b, as, behind, hb, h.items behind has hstop, rfl⟩
  · rintro ⟨b, as, behind, hb, has, rfl⟩
    obtain ⟨mid, has, hstop⟩ := h.collect env has behind (Nat.le_refl _)
    exact ⟨mid, ⟨b, behind, hb, as, mid, has, rfl, rfl⟩, hstop⟩

/-- Reports that a string names no dialect, if it names none. -/
def remarkDialect (value : StringLiteral) : Parser Unit :=
  if (Dialect.ofBytes? value.bytes).isNone = true then
    report (.unknownSyntax (String.ofList (Utf8.decodeLossy value.bytes)) value.span)
  else Pure.pure ()

theorem dialectStatement_eq : dialectStatement = (do
    let start ← expectKeyword .kwSyntax
    let _ ← expectMark .equals
    let value ← stringLiteral
    remarkDialect value
    let stop ← expectMark .semicolon
    pure (.dialect (Dialect.ofBytes? value.bytes) (start.through stop))) := by
  refine congrArg (expectKeyword .kwSyntax >>= ·) (funext fun start => ?_)
  refine congrArg (expectMark .equals >>= ·) (funext fun _ => ?_)
  refine congrArg (stringLiteral >>= ·) (funext fun value => ?_)
  unfold remarkDialect
  by_cases hnone : (Dialect.ofBytes? value.bytes).isNone = true
  · rw [if_pos hnone]
    simp only [hnone, if_true]
  · rw [if_neg hnone]
    simp only [hnone]
    rfl

theorem oblivious_remarkDialect (value : StringLiteral) : Oblivious (remarkDialect value) := by
  unfold remarkDialect
  split
  · exact Oblivious.hereditary.report _ rfl
  · exact Oblivious.hereditary.pure _

theorem remarkDialect_iff {value : StringLiteral} {u : Unit} :
    Takes (remarkDialect value) env ls u rest ↔ rest = ls := by
  unfold remarkDialect
  split
  · constructor
    · rintro ⟨log, hrun⟩
      cases hrun
      rfl
    · rintro rfl
      exact ⟨_, rfl⟩
  · rw [pure_iff]
    exact ⟨And.right, fun h => ⟨rfl, h⟩⟩

/-- String literals in a row, up to a semicolon. -/
theorem stringLiteral_iff {value : StringLiteral} :
    (∃ mid, Takes stringLiteral env ls value mid ∧
        ahead mid = .token (.mark .semicolon) stop :: rest) ↔
      ∃ first others behind, LiteralNext ls first behind ∧
        Items LiteralNext behind others stop rest ∧
        value = ⟨first.bytes ++ others.flatMap StringLiteral.bytes,
          first.span.through (others.getLastD first).span⟩ :=
  turnOf_string.row_iff literal_iff _

/-- Words joined by dots, up to a semicolon. -/
theorem dottedName_iff {name : DottedName} :
    (∃ mid, Takes (dottedName (.mark .semicolon)) env ls name mid ∧
        ahead mid = .token (.mark .semicolon) stop :: rest) ↔
      ∃ first others behind, WordNext ls first behind ∧ Items DottedNext behind others stop rest ∧
        name = ⟨first, others⟩ :=
  turnOf_name.row_iff ident_iff _

theorem dialectStatement_iff {st : Statement} : Takes dialectStatement env ls st rest ↔
    ∃ value span, DialectForm ls value span rest ∧
      st = .dialect (Dialect.ofBytes? value) span := by
  have o := Oblivious.hereditary
  have hend (start : Span) (value : StringLiteral) : Oblivious (do
      let stop ← expectMark .semicolon
      pure (Statement.dialect (Dialect.ofBytes? value.bytes) (start.through stop))) :=
    o.bind (o.expectMark _) fun _ => o.pure _
  have hremark (start : Span) (value : StringLiteral) : Oblivious (do
      remarkDialect value
      let stop ← expectMark .semicolon
      pure (Statement.dialect (Dialect.ofBytes? value.bytes) (start.through stop))) :=
    o.bind (oblivious_remarkDialect value) fun _ => hend start value
  rw [dialectStatement_eq]
  simp only [bind_iff fun start => o.bind (o.expectMark _) fun _ =>
      o.bind o.stringLiteral fun value => hremark start value,
    bind_iff fun _ => o.bind o.stringLiteral fun value => hremark _ value, bind_iff (hremark _),
    bind_iff fun _ => hend _ _, bind_iff fun _ => o.pure _, expectKeyword_iff, expectMark_iff,
    remarkDialect_iff, pure_iff]
  constructor
  · rintro ⟨start, ls₁, hstart, equals, ls₂, hequals, value, ls₃, hvalue, _, _, rfl, stop, _, hstop,
      rfl, rfl⟩
    obtain ⟨first, others, behind, hfirst, hothers, rfl⟩ :=
      stringLiteral_iff.mp ⟨_, hvalue, hstop⟩
    exact ⟨_, _, .mk hstart hequals hfirst hothers, rfl⟩
  · rintro ⟨_, _, ⟨hstart, hequals, hfirst, hothers⟩, rfl⟩
    have hliteral := @stringLiteral_iff env
    obtain ⟨mid, hvalue, hstop⟩ := hliteral.mpr ⟨_, _, _, hfirst, hothers, rfl⟩
    exact ⟨_, _, hstart, _, _, hequals, _, mid, hvalue, (), mid, rfl, _, _, hstop, rfl, rfl⟩

theorem packageStatement_iff {p : Package} :
    Takes packageStatement env ls p rest ↔ PackageForm ls p rest := by
  have o := Oblivious.hereditary
  have hend (start : Span) (name : DottedName) : Oblivious (do
      let stop ← expectMark .semicolon
      pure (⟨name, start.through stop⟩ : Package)) :=
    o.bind (o.expectMark _) fun _ => o.pure _
  unfold packageStatement
  simp only [bind_iff fun start => o.bind (o.dottedName _) fun name => hend start name,
    bind_iff (hend _), bind_iff fun _ => o.pure _, expectKeyword_iff, expectMark_iff, pure_iff]
  constructor
  · rintro ⟨start, ls₁, hstart, name, ls₂, hname, stop, _, hstop, rfl, rfl⟩
    obtain ⟨first, others, behind, hfirst, hothers, rfl⟩ := dottedName_iff.mp ⟨_, hname, hstop⟩
    exact .mk hstart hfirst hothers
  · rintro ⟨hstart, hfirst, hothers⟩
    have hdotted := @dottedName_iff env
    obtain ⟨mid, hname, hstop⟩ := hdotted.mpr ⟨_, _, _, hfirst, hothers, rfl⟩
    exact ⟨_, _, hstart, _, mid, hname, _, _, hstop, rfl, rfl⟩

end Parser

theorem LiteralNext.unique {ls rest rest' : List Lexeme} {l l' : StringLiteral}
    (h : LiteralNext ls l rest) (h' : LiteralNext ls l' rest') : l' = l ∧ rest' = rest := by
  obtain ⟨bytes, s⟩ := l
  obtain ⟨bytes', s'⟩ := l'
  cases h.symm.trans h'
  exact ⟨rfl, rfl⟩

open ProtoSchema.Parser in
theorem DialectForm.unique {ls rest rest' : List Lexeme} {value value' : List UInt8}
    {span span' : Span} (h : DialectForm ls value span rest) (h' : DialectForm ls value' span' rest') :
    value' = value ∧ span' = span ∧ rest' = rest := by
  obtain ⟨hstart, hequals, hfirst, hothers⟩ := h
  obtain ⟨hstart', hequals', hfirst', hothers'⟩ := h'
  cases hstart.symm.trans hstart'
  cases hequals.symm.trans hequals'
  obtain ⟨rfl, rfl⟩ := hfirst.unique hfirst'
  obtain ⟨rfl, rfl, rfl⟩ := turnOf_string.unique hothers hothers'
  exact ⟨rfl, rfl, rfl⟩

/-- What stands in front of the next token makes no difference. -/
theorem dialectForm_ahead {ls rest : List Lexeme} {value : List UInt8} {span : Span} :
    DialectForm (ahead ls) value span rest ↔ DialectForm ls value span rest := by
  constructor
  · rintro ⟨hstart, hequals, hfirst, hothers⟩
    exact .mk (by rwa [ahead_ahead] at hstart) hequals hfirst hothers
  · rintro ⟨hstart, hequals, hfirst, hothers⟩
    exact .mk (by rwa [ahead_ahead]) hequals hfirst hothers

theorem packageForm_ahead {ls rest : List Lexeme} {p : Package} :
    PackageForm (ahead ls) p rest ↔ PackageForm ls p rest := by
  constructor
  · rintro ⟨hstart, hfirst, hothers⟩
    exact .mk (by rwa [ahead_ahead] at hstart) hfirst hothers
  · rintro ⟨hstart, hfirst, hothers⟩
    exact .mk (by rwa [ahead_ahead]) hfirst hothers

/-! ### Statements -/

namespace Parser

open Takes Remainder

variable {env : Surroundings} {ls rest : List Lexeme} {st : Statement}

/-- What `statement` does once it knows the keyword. -/
def statementOf : Option Keyword → Parser Statement
  | some .kwSyntax => dialectStatement
  | some .kwPackage => .package <$> packageStatement
  | some .kwImport => .dependency <$> importStatement
  | some .kwOption => .option <$> optionStatement
  | some .kwMessage => .message <$> message
  | some .kwEnum => .enum <$> enum
  | some .kwExtend => .extend <$> extend
  | some .kwService => .service <$> service
  | _ => unexpected .statement

theorem oblivious_statementOf (k? : Option Keyword) : Oblivious (statementOf k?) := by
  have o := Oblivious.hereditary
  unfold statementOf
  split
  · exact o.dialectStatement
  · exact o.map _ o.packageStatement
  · exact o.map _ o.importStatement
  · exact o.map _ o.optionStatement
  · exact o.map _ o.message
  · exact o.map _ o.enum
  · exact o.map _ o.extend
  · exact o.map _ o.service
  · exact o.unexpected _

theorem statement_iff : Takes statement env ls st rest ↔
    Takes (statementOf (keyword? ⟨ls, []⟩)) env (ahead ls) st rest := by
  have heq : statement = peekKeyword >>= statementOf := by
    refine congrArg (peekKeyword >>= ·) (funext fun k? => ?_)
    unfold statementOf
    rfl
  rw [heq, bind_iff oblivious_statementOf]
  simp only [peekKeyword_iff]
  constructor
  · rintro ⟨_, _, ⟨rfl, rfl⟩, h⟩
    exact h
  · intro h
    exact ⟨_, _, ⟨rfl, rfl⟩, h⟩

theorem keyword?_of_ahead {k : Keyword} {s : Span} (h : ahead ls = .token (.ident k.text) s :: rest) :
    keyword? ⟨ls, []⟩ = some k := by
  have hset : (settle ⟨ls, []⟩).lexemes = .token (.ident k.text) s :: rest :=
    (lexemes_settle _).trans h
  rw [keyword?, (next?_eq_some_iff _ _).mpr ⟨_, _, hset⟩]
  exact Keyword.ofText?_text k

/-- A statement starts with a word. -/
theorem ahead_of_statement (h : Takes statement env ls st rest) :
    ∃ word s behind, ahead ls = .token (.ident word) s :: behind := by
  rw [statement_iff] at h
  have hset : (settle ⟨ls, []⟩).lexemes = ahead ls := lexemes_settle _
  unfold keyword? at h
  cases hnext : next? ⟨ls, []⟩ with
  | none =>
      rw [hnext] at h
      exact (not_unexpected h).elim
  | some t =>
      obtain ⟨s, behind, hahead⟩ := (next?_eq_some_iff _ _).mp hnext
      rw [hnext] at h
      cases t with
      | ident word => exact ⟨word, s, behind, hset.symm.trans hahead⟩
      | _ => exact (not_unexpected h).elim

theorem statement_of_dialectForm {value : List UInt8} {span : Span}
    (h : DialectForm ls value span rest) :
    Takes statement env ls (.dialect (Dialect.ofBytes? value) span) rest := by
  have hdialect : Takes dialectStatement env (ahead ls) _ rest :=
    dialectStatement_iff.mpr ⟨value, span, dialectForm_ahead.mpr h, rfl⟩
  obtain ⟨hstart, -, -, -⟩ := h
  rw [statement_iff, keyword?_of_ahead (k := .kwSyntax) hstart]
  exact hdialect

theorem statement_of_packageForm {p : Package} (h : PackageForm ls p rest) :
    Takes statement env ls (.package p) rest := by
  have hpackage : Takes packageStatement env (ahead ls) p rest :=
    packageStatement_iff.mpr (packageForm_ahead.mpr h)
  obtain ⟨hstart, -, -⟩ := h
  rw [statement_iff, keyword?_of_ahead (k := .kwPackage) hstart]
  exact map_iff.mpr ⟨_, hpackage, rfl⟩

end Parser

end ProtoSchema
