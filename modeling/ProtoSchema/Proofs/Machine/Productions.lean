/-
Every production of the machine does what that of the parser does.

The proofs follow the productions.  Each begins with a look, and goes through what the look may
have found: a token that is taken, and the parser takes it; a token that belongs to another
production, which both go on with; or something else, which both report.  So whatever is taken
was looked at, and what is taken behind the sign of a number is a number or a word.

Two places need more.  A loop that stops before a mark leaves the mark in the buffer, where it is
taken.  And the brace that ends a block lies behind the one that opens it, so the text between
them is a slice of the source.
-/
import ProtoSchema.Proofs.Machine.Tracks
import ProtoSchema.Proofs.Parsing.Productions

namespace ProtoSchema

open Remainder

theorem Text.isBoundary_of_boundary {source : List Char} {offset : Nat}
    (h : Text.Boundary source offset) : Text.isBoundary offset source = true := by
  obtain ⟨before, behind, rfl, rfl⟩ := h
  induction before with
  | nil => rw [Utf8.size_nil, isBoundary]
  | cons c cs ih =>
      obtain ⟨n, hn⟩ : ∃ n, c.utf8Size + Utf8.size cs = n + 1 :=
        ⟨_, (Nat.succ_pred (by have := c.utf8Size_pos; omega)).symm⟩
      have hrest : n + 1 - c.utf8Size = Utf8.size cs := by omega
      rw [Utf8.size_cons, hn, List.cons_append, isBoundary, hrest, ih, Bool.and_true,
        decide_eq_true_iff]
      omega

/-- What must come next is missing at the end of the source. -/
theorem Parser.require_bind_nil {α β : Type} (e : Expectation) (want : Token → Span → Option α)
    (f : α → Parser β) (env : Surroundings) (log : List Diagnostic) :
    (require e want >>= f) env ⟨[], log⟩ = unexpected e env ⟨[], log⟩ :=
  congrFun (congrFun (unexpected_bind e f) env) ⟨[], log⟩

namespace Parser

/-- What a reservation reserves. -/
def reservedKind : Parser ReservedKind := do
  match ← peek with
  | some (.int _) | some (.mark .minus) => do
    let ranges ← separated numberRange
    pure (ReservedKind.ranges ranges)
  | some (.string _) | some (.ident _) => do
    let names ← separated reservedName
    pure (ReservedKind.names names)
  | _ => unexpected .reservation

theorem reservedStatement_eq : reservedStatement = (do
    let start ← expectKeyword .kwReserved
    let kind ← reservedKind
    let stop ← expectMark .semicolon
    pure ⟨kind, start.through stop⟩) := by
  refine congrArg (expectKeyword .kwReserved >>= ·) (funext fun start => ?_)
  rw [reservedKind, bind_assoc]
  refine congrArg (peek >>= ·) (funext fun t? => ?_)
  rcases t? with _ | t
  · rfl
  · cases t with
    | float v => rfl
    | mark mark =>
        cases mark with
        | minus => rw [bind_assoc]
        | _ => rfl
    | _ => rw [bind_assoc]

/-- What ends a method: a semicolon, or a body of options. -/
def methodEnd : Parser (List OptionStatement × Span) := do
  match ← peek with
  | some (.mark .semicolon) => do
    let s ← expectMark .semicolon
    pure ([], s)
  | some (.mark .leftBrace) => body .method methodMember
  | _ => unexpected .methodEnd

theorem method_eq : method = (do
    let start ← expectKeyword .kwRpc
    let name ← ident
    let (clientStreaming, input) ← methodType
    let _ ← expectKeyword .kwReturns
    let (serverStreaming, output) ← methodType
    let (options, stop) ← methodEnd
    pure ⟨name, input, output, options, clientStreaming, serverStreaming, start.through stop⟩) := by
  refine congrArg (expectKeyword .kwRpc >>= ·) (funext fun start => ?_)
  refine congrArg (ident >>= ·) (funext fun name => ?_)
  refine congrArg (methodType >>= ·) (funext fun input => ?_)
  refine congrArg (expectKeyword .kwReturns >>= ·) (funext fun _ => ?_)
  refine congrArg (methodType >>= ·) (funext fun output => ?_)
  dsimp only
  rw [methodEnd, bind_assoc]
  refine congrArg (peek >>= ·) (funext fun t? => ?_)
  rcases t? with _ | t
  · rfl
  · cases t with
    | mark mark =>
        cases mark with
        | semicolon => rw [bind_assoc]
        | _ => rfl
    | _ => rfl

/-- Goes on behind a statement that began with no closing brace. -/
def finish (draft : Draft) : Option Statement → Parser (Option Draft)
  | some s => do
    let (file, ds) := draft.file.place draft.first s
    reportAll ds
    pure (some ⟨file, false⟩)
  | none => do
    recover
    pure (some { draft with first := false })

end Parser

namespace Machine.Tracks

variable {α β : Type} {pre : State → Prop} {post : α → β → State → Prop}

/-! ### Steps -/

theorem map {γ : Type} {m : Machine α} {p : Parser α} (h : Mirrors m p) (f : α → γ) :
    Tracks pre (f <$> m) (f <$> p) fun a b _ => a = b := by
  rw [← bind_pure_comp, ← bind_pure_comp]
  exact andThen h fun a => .pure fun _ _ => rfl

/-- A mark that a loop has stopped before. -/
theorem takeMark (k : Punctuation) {f : Token × Span → Machine α} {g : Span → Parser β}
    (h : ∀ p, Tracks (fun _ => True) (f (.mark k, p)) (g p) post) :
    Tracks (fun s => ∃ p, s.Holds (some (.mark k, p))) (bump >>= f)
      (Parser.expectMark k >>= g) post := by
  rintro env lo depth s hw ⟨p, hs⟩
  have hq : ∀ env ls log, (Parser.expectMark k >>= g) env ⟨.token (.mark k) p :: ls, log⟩ =
      g p env ⟨ls, log⟩ := by
    intro env ls log
    rw [Parser.bind_run, Parser.expectMark_run env rfl]
    rfl
  exact take (h p) hq env lo depth s hw hs

/-! ### Names -/

theorem ident : Mirrors Machine.ident Parser.ident := by
  refine peek (.bind (.accept? _)) fun x => ?_
  rcases x with _ | ⟨t, p⟩
  · exact atEnd (unexpected _) fun _ _ => rfl
  · cases t with
    | ident word => exact take (.pure fun _ _ => rfl) fun _ _ _ => rfl
    | _ => exact before (unexpected _) fun _ _ _ => rfl

theorem nameTurn (stop : Terminator) :
    Mirrors (Machine.nameTurn stop) (Parser.nameTurn stop) := by
  have hother : ∀ {t p}, (∀ env ls log, Parser.nameTurn stop env ⟨.token t p :: ls, log⟩ =
        (if stop.admits t then Pure.pure .stop else Parser.unexpected (.nameEnd stop) :
          Parser (Parser.Turn Ident)) env ⟨.token t p :: ls, log⟩) →
      Tracks (State.Holds (some (t, p)))
        (if stop.admits t then Pure.pure .stop else Machine.unexpected (.nameEnd stop))
        (Parser.nameTurn stop) fun a b _ => a = b := by
    intro t p hq
    refine before ?_ hq
    split
    · exact .pure fun _ _ => rfl
    · exact unexpected _
  refine peek (.bind (.accept? _)) fun x => ?_
  rcases x with _ | ⟨t, p⟩
  · exact atEnd (unexpected _) fun _ _ => rfl
  · cases t with
    | mark mark =>
        cases mark with
        | dot => exact take (andThen ident fun word => .pure fun _ _ => rfl) fun _ _ _ => rfl
        | _ => exact hother fun _ _ _ => rfl
    | _ => exact hother fun _ _ _ => rfl

theorem dottedName (stop : Terminator) :
    Mirrors (Machine.dottedName stop) (Parser.dottedName stop) := by
  rw [Parser.dottedName_eq]
  exact andThen ident fun first => andThen (many (nameTurn stop)) fun rest => .pure fun _ _ => rfl

theorem typeName (stop : Terminator) :
    Mirrors (Machine.typeName stop) (Parser.typeName stop) := by
  refine peek (.bind .peek) fun x => ?_
  rcases x with _ | ⟨t, p⟩
  · exact atEnd (unexpected _) fun _ _ => rfl
  · cases t with
    | ident word =>
        exact before (andThen (dottedName stop) fun name => .pure fun _ _ => rfl) fun _ _ _ => rfl
    | mark mark =>
        cases mark with
        | dot =>
            exact take (andThen (dottedName stop) fun name => .pure fun _ _ => rfl) fun _ _ _ => rfl
        | _ => exact before (unexpected _) fun _ _ _ => rfl
    | _ => exact before (unexpected _) fun _ _ _ => rfl

/-! ### Literals -/

theorem minus : Mirrors Machine.minus? (Parser.acceptMark? .minus) := by
  refine peek (.accept? _) fun x => ?_
  rcases x with _ | ⟨t, p⟩
  · exact atEnd (.pure fun _ _ => rfl) fun _ _ => rfl
  · cases t with
    | mark mark =>
        cases mark with
        | minus => exact take (.pure fun _ _ => rfl) fun _ _ _ => rfl
        | _ => exact before (.pure fun _ _ => rfl) fun _ _ _ => rfl
    | _ => exact before (.pure fun _ _ => rfl) fun _ _ _ => rfl

theorem integer : Mirrors Machine.integer Parser.integer := by
  refine andThen minus fun minus => peek (.bind (.bind (.accept? _))) fun x => ?_
  rcases x with _ | ⟨t, p⟩
  · exact atEnd (unexpected _) (Parser.require_bind_nil _ _ _)
  · cases t with
    | int n =>
        cases minus with
        | none => exact take (.pure fun _ _ => rfl) fun _ _ _ => rfl
        | some m => exact take (.pure fun _ _ => rfl) fun _ _ _ => rfl
    | _ => exact before (unexpected _) fun _ _ _ => rfl

theorem quoted : Mirrors Machine.quoted (Parser.require .string Parser.quoted?) := by
  refine peek (.bind (.accept? _)) fun x => ?_
  rcases x with _ | ⟨t, p⟩
  · exact atEnd (unexpected _) fun _ _ => rfl
  · cases t with
    | string bytes => exact take (.pure fun _ _ => rfl) fun _ _ _ => rfl
    | _ => exact before (unexpected _) fun _ _ _ => rfl

theorem stringTurn : Mirrors Machine.stringTurn Parser.stringTurn := by
  refine peek (.bind (.accept? _)) fun x => ?_
  rcases x with _ | ⟨t, p⟩
  · exact atEnd (.pure fun _ _ => rfl) fun _ _ => rfl
  · cases t with
    | string bytes => exact take (.pure fun _ _ => rfl) fun _ _ _ => rfl
    | _ => exact before (.pure fun _ _ => rfl) fun _ _ _ => rfl

theorem stringLiteral : Mirrors Machine.stringLiteral Parser.stringLiteral := by
  rw [Parser.stringLiteral_eq]
  exact andThen quoted fun first => andThen (many stringTurn) fun rest => .pure fun _ _ => rfl

theorem textLiteral : Mirrors Machine.textLiteral Parser.textLiteral := by
  refine andThen stringLiteral fun s => ?_
  cases Utf8.decode? s.bytes with
  | some text => exact .pure fun _ _ => rfl
  | none => exact bind (addError _) fun _ _ => .pure fun _ _ => rfl

/-! ### Options -/

/-- What is taken behind a sign is a number or a word, and nothing else gets there. -/
theorem signedValue (minus : Option Span) :
    Mirrors (Machine.signedValue minus) (Parser.signedValue minus) := by
  rw [Machine.signedValue, signable, bind_assoc]
  refine peek (.bind (.bind (.accept? _))) fun x => ?_
  rcases x with _ | ⟨t, p⟩
  · simp only [Machine.unexpected_bind]
    exact atEnd (unexpected _) (Parser.require_bind_nil _ _ _)
  · cases t with
    | ident word =>
        cases minus with
        | none => exact take (.pure fun _ _ => rfl) fun _ _ _ => rfl
        | some m =>
            refine take (g := if Parser.isNegatable word then
              Pure.pure (.ident true ⟨word, p⟩ (m.through p))
              else Parser.report (.negativeIdent (m.through p)) >>= fun _ =>
                Pure.pure (.ident true ⟨word, p⟩ (m.through p))) ?_ fun _ _ _ => ?_
            · dsimp only
              cases Parser.isNegatable word with
              | true => exact .pure fun _ _ => rfl
              | false => exact bind (addError _) fun _ _ => .pure fun _ _ => rfl
            · rfl
    | int n => exact take (.pure fun _ _ => rfl) fun _ _ _ => rfl
    | float v => exact take (.pure fun _ _ => rfl) fun _ _ _ => rfl
    | _ =>
        simp only [isSignable, Bool.false_eq_true, if_false, Machine.unexpected_bind]
        exact before (unexpected _) fun _ _ _ => rfl

/-- A mark that must come next; what both go on with lies behind it. -/
theorem expectMark_behind (k : Punctuation) {f : Span → Machine α} {g : Span → Parser β}
    (h : ∀ p env depth s, p.Fits env.source → Works env p.stop depth s →
      Agrees env p.stop depth post (f p env.source s) (g p env s.remainder)) :
    Tracks pre (Machine.expectMark k >>= f) (Parser.expectMark k >>= g) post := by
  rw [Machine.expectMark, bind_assoc, Parser.expectMark_eq]
  refine peek (.bind (.bind (.accept? _))) fun x => ?_
  rcases x with _ | ⟨t, p⟩
  · simp only [Machine.unexpected_bind]
    exact atEnd (unexpected _) (Parser.require_bind_nil _ _ _)
  · by_cases ht : t = .mark k
    · subst ht
      intro env lo depth s hw hs
      obtain ⟨hlo, hfits, hbehind⟩ := hw.behind hs
      have hgo := (h p env depth _ hfits hbehind).mono (Nat.le_trans hlo hfits.ordered)
      simp only [if_pos]
      rw [bind_assoc, bind_run, bump_run hs, hs.remainder_some, ← Parser.expectMark_eq,
        Parser.bind_run, Parser.expectMark_run env rfl]
      exact hgo
    · simp only [if_neg ht, Machine.unexpected_bind]
      refine before (unexpected _) fun env ls log => ?_
      rw [Parser.require, bind_assoc,
        Parser.bind_done (Parser.accept?_run_none env rfl (if_neg ht))]
      exact congrFun (congrFun (Parser.unexpected_bind _ g) env) _

/-- A turn of the loop over a block stops before the brace that closes it. -/
theorem blockTurn (n : Nat) : Tracks (fun _ => True) (Machine.blockTurn (n + 1))
    (Parser.blockTurn n)
    (Turned (fun a b => a = b + 1) fun s => ∃ p, s.Holds (some (.mark .rightBrace, p))) := by
  refine peek (.bind .peek) fun x => ?_
  rcases x with _ | ⟨t, p⟩
  · exact atEnd (unexpected _) fun _ _ => rfl
  · cases t with
    | mark mark =>
        cases mark with
        | leftBrace =>
            exact take (g := Pure.pure (some (n + 1))) (.pure fun _ _ => rfl) fun _ _ _ => rfl
        | rightBrace =>
            cases n with
            | zero =>
                exact before (g := Pure.pure none) (.pure fun _ hs => ⟨p, hs⟩) fun _ _ _ => rfl
            | succ n =>
                exact take (g := Pure.pure (some n)) (.pure fun _ _ => rfl) fun _ _ _ => rfl
        | _ => exact take (g := Pure.pure (some n)) (.pure fun _ _ => rfl) fun _ _ _ => rfl
    | _ => exact take (g := Pure.pure (some n)) (.pure fun _ _ => rfl) fun _ _ _ => rfl

/-- The text of a block is a slice, as its closing brace lies behind the opening one. -/
theorem aggregate : Mirrors Machine.aggregate Parser.aggregate := by
  refine expectMark_behind _ fun opening env depth s hopening hw => ?_
  rw [Parser.blockEnd_eq, bind_assoc]
  have hloop := iterate (R := fun a b => a = b + 1) (fun a b hab => hab ▸ blockTurn b)
    (b := 0) rfl env _ depth s hw trivial
  refine hloop.bind fun a b s hw hs => ?_
  obtain ⟨-, closing, hs⟩ := hs
  obtain ⟨hlo, hclosing, -⟩ := hw.behind hs
  have hslice : slice opening.stop closing.start env.source { s with buffer := none } =
      .done (Text.slice env.source ⟨opening.stop, closing.start⟩) { s with buffer := none } :=
    if_pos ⟨hlo, Text.isBoundary_of_boundary hopening.stops,
      Text.isBoundary_of_boundary hclosing.starts⟩
  rw [bind_run, bump_run hs, hs.remainder_some, Parser.bind_run, Parser.expectMark_run env rfl]
  dsimp only
  rw [bind_run, hslice]
  exact .done (hw.bump hs) rfl

theorem optionValue : Mirrors Machine.optionValue Parser.optionValue := by
  refine peek (.bind .peek) fun x => ?_
  rcases x with _ | ⟨t, p⟩
  · exact atEnd (unexpected _) fun _ _ => rfl
  · cases t with
    | ident word => exact take (.pure fun _ _ => rfl) fun _ _ _ => rfl
    | string bytes =>
        exact before (andThen stringLiteral fun s => .pure fun _ _ => rfl) fun _ _ _ => rfl
    | mark mark =>
        cases mark with
        | plus => exact take (signedValue none) fun _ _ _ => rfl
        | minus => exact take (signedValue (some p)) fun _ _ _ => rfl
        | leftBrace => exact before aggregate.anywhere fun _ _ _ => rfl
        | _ => exact before (unexpected _) fun _ _ _ => rfl
    | _ => exact before (signedValue none).anywhere fun _ _ _ => rfl

theorem optionNamePart : Mirrors Machine.optionNamePart Parser.optionNamePart := by
  refine peek (.bind .peek) fun x => ?_
  rcases x with _ | ⟨t, p⟩
  · exact atEnd (unexpected _) fun _ _ => rfl
  · cases t with
    | ident word => exact before (map ident _) fun _ _ _ => rfl
    | mark mark =>
        cases mark with
        | leftParen =>
            refine take (andThen (typeName _) fun name => andThen (expectMark _) fun closing =>
              .pure fun _ _ => rfl) fun _ _ _ => rfl
        | _ => exact before (unexpected _) fun _ _ _ => rfl
    | _ => exact before (unexpected _) fun _ _ _ => rfl

theorem optionNameTurn : Mirrors Machine.optionNameTurn Parser.optionNameTurn := by
  refine peek (.bind (.accept? _)) fun x => ?_
  rcases x with _ | ⟨t, p⟩
  · exact atEnd (unexpected _) fun _ _ => rfl
  · cases t with
    | mark mark =>
        cases mark with
        | dot =>
            exact take (andThen optionNamePart fun part => .pure fun _ _ => rfl) fun _ _ _ => rfl
        | equals => exact take (.pure fun _ _ => rfl) fun _ _ _ => rfl
        | _ => exact before (unexpected _) fun _ _ _ => rfl
    | _ => exact before (unexpected _) fun _ _ _ => rfl

theorem optionSetting : Mirrors Machine.optionSetting Parser.optionSetting := by
  rw [Parser.optionSetting_eq]
  exact andThen optionNamePart fun first => andThen (many optionNameTurn) fun rest =>
    andThen optionValue fun value => .pure fun _ _ => rfl

theorem optionStatement : Mirrors Machine.optionStatement Parser.optionStatement := by
  exact andThen (expectKeyword _) fun start => andThen optionSetting fun setting =>
    andThen (expectMark _) fun stop => .pure fun _ _ => rfl

/-- A turn of the loop over options in brackets stops before the closing bracket only. -/
theorem optionListTurn : Tracks (fun _ => True) Machine.optionListTurn Parser.optionListTurn
    fun t u s => t = u ∧ (t = .stop → ∃ p, s.Holds (some (.mark .rightBracket, p))) := by
  refine peek (.bind (.accept? _)) fun x => ?_
  rcases x with _ | ⟨t, p⟩
  · exact atEnd (unexpected _) fun _ _ => rfl
  · cases t with
    | mark mark =>
        cases mark with
        | comma =>
            exact take (andThen optionSetting fun setting => .pure fun _ _ => ⟨rfl, by simp⟩)
              fun _ _ _ => rfl
        | rightBracket =>
            exact before (.pure fun _ hs => ⟨rfl, fun _ => ⟨p, hs⟩⟩) fun _ _ _ => rfl
        | _ => exact before (unexpected _) fun _ _ _ => rfl
    | _ => exact before (unexpected _) fun _ _ _ => rfl

theorem optionList : Mirrors Machine.optionList Parser.optionList := by
  rw [Parser.optionList_eq]
  refine andThen (expectMark _) fun opening => andThen optionSetting fun first =>
    bindSame (manyLeaving optionListTurn) fun rest => ?_
  exact takeMark _ fun closing => .pure fun _ _ => rfl

theorem optionList? : Mirrors Machine.optionList? Parser.optionList? := by
  refine peek (.bind .peek) fun x => ?_
  rcases x with _ | ⟨t, p⟩
  · exact atEnd (.pure fun _ _ => rfl) fun _ _ => rfl
  · cases t with
    | mark mark =>
        cases mark with
        | leftBracket => exact before (map optionList _) fun _ _ _ => rfl
        | _ => exact before (.pure fun _ _ => rfl) fun _ _ _ => rfl
    | _ => exact before (.pure fun _ _ => rfl) fun _ _ _ => rfl

/-! ### Fields -/

theorem ofText?_eq_some_iff {word : String} {k : Keyword} :
    Keyword.ofText? word = some k ↔ word = k.text := by
  constructor
  · exact fun h => (Keyword.text_of_ofText? h).symm
  · rintro rfl
    exact Keyword.ofText?_text k

/-- A keyword that is found is that of the token in the buffer. -/
theorem findKeyword : Tracks (fun _ => True) Machine.peekKeyword Parser.peekKeyword
    fun k l s => k = l ∧ ∃ x, s.Holds x ∧ keyword? x = k := by
  refine peek (.bind .peek) fun x => ?_
  rcases x with _ | ⟨t, p⟩
  · exact atEnd (.pure fun _ hs => ⟨rfl, _, hs, rfl⟩) fun _ _ => rfl
  · cases t with
    | _ => exact before (.pure fun _ hs => ⟨rfl, _, hs, rfl⟩) fun _ _ _ => rfl

theorem lookForKeyword : Mirrors Machine.peekKeyword Parser.peekKeyword :=
  findKeyword.imp fun _ _ _ h => h.1

/-- A keyword that a look has found is a word in the buffer. -/
theorem takeKeyword {k : Keyword} {x : Option (Token × Span)} (hk : keyword? x = some k)
    {f : Token × Span → Machine α} {q : Parser β} {g : Span → Parser β}
    (h : ∀ p, Tracks (fun _ => True) (f (.ident k.text, p)) (g p) post)
    (hq : ∀ p env ls log, q env ⟨.token (.ident k.text) p :: ls, log⟩ = g p env ⟨ls, log⟩) :
    Tracks (State.Holds x) (bump >>= f) q post := by
  rcases x with _ | ⟨t, p⟩
  · cases hk
  · cases t with
    | ident word =>
        obtain rfl := ofText?_eq_some_iff.mp hk
        exact take (h p) (hq p)
    | _ => cases hk

theorem takeAccepted {k : Keyword} {x : Option (Token × Span)} (hk : keyword? x = some k)
    {f : Token × Span → Machine α} {g : Option Span → Parser β}
    (h : ∀ p, Tracks (fun _ => True) (f (.ident k.text, p)) (g (some p)) post) :
    Tracks (State.Holds x) (bump >>= f) (Parser.acceptKeyword? k >>= g) post := by
  refine takeKeyword hk h fun p env ls log => ?_
  rw [Parser.acceptKeyword?, Parser.bind_done (Parser.accept?_run_some env rfl (if_pos rfl))]
  rfl

theorem takeExpected {k : Keyword} {x : Option (Token × Span)} (hk : keyword? x = some k)
    {f : Token × Span → Machine α} {g : Span → Parser β}
    (h : ∀ p, Tracks (fun _ => True) (f (.ident k.text, p)) (g p) post) :
    Tracks (State.Holds x) (bump >>= f) (Parser.expectKeyword k >>= g) post := by
  refine takeKeyword hk h fun p env ls log => ?_
  rw [Parser.expectKeyword_eq, Parser.require, bind_assoc,
    Parser.bind_done (Parser.accept?_run_some env rfl (if_pos rfl))]
  rfl

/-- Where a keyword does not come next, the parser passes it over. -/
theorem passKeyword {k : Keyword} {x : Option (Token × Span)} (hk : keyword? x ≠ some k)
    {m : Machine α} {g : Option Span → Parser β} (h : Tracks (State.Holds x) m (g none) post) :
    Tracks (State.Holds x) m (Parser.acceptKeyword? k >>= g) post := by
  rcases x with _ | ⟨t, p⟩
  · exact atEnd h fun _ _ => rfl
  · refine before h fun env ls log => ?_
    have ht : t ≠ .ident k.text := by
      rintro rfl
      exact hk (ofText?_eq_some_iff.mpr rfl)
    rw [Parser.acceptKeyword?, Parser.bind_done (Parser.accept?_run_none env rfl (if_neg ht))]
    rfl

theorem label : Mirrors Machine.label? Parser.label? := by
  refine peekKeyword (.accept? _) fun x => ?_
  rcases x with _ | ⟨t, p⟩
  · exact atEnd (.pure fun _ _ => rfl) fun _ _ => rfl
  · cases t with
    | ident word =>
        have hlook : keyword? (some (.ident word, p)) = Keyword.ofText? word := rfl
        rw [hlook]
        have hnone : Parser.labelOf? word = none → Tracks (State.Holds (some (.ident word, p)))
            (Pure.pure none) Parser.label? fun a b _ => a = b := by
          refine fun h => before (.pure fun _ _ => rfl) fun env ls log => ?_
          exact Parser.accept?_run_none env rfl (congrArg (Option.map (·, p)) h)
        have hsome : ∀ l, Parser.labelOf? word = some l →
            Tracks (State.Holds (some (.ident word, p)))
              (do
                let x ← bump
                Pure.pure (some (l, x.2))) Parser.label? fun a b _ => a = b := by
          refine fun l h => take (.pure fun _ _ => rfl) fun env ls log => ?_
          exact Parser.accept?_run_some env rfl (congrArg (Option.map (·, p)) h)
        cases hword : Keyword.ofText? word with
        | none => exact hnone (by rw [Parser.labelOf?, hword])
        | some k =>
            cases k with
            | kwOptional => exact hsome .optional (by rw [Parser.labelOf?, hword])
            | kwRequired => exact hsome .required (by rw [Parser.labelOf?, hword])
            | kwRepeated => exact hsome .repeated (by rw [Parser.labelOf?, hword])
            | _ => exact hnone (by rw [Parser.labelOf?, hword])
    | _ => exact before (.pure fun _ _ => rfl) fun _ _ _ => rfl

theorem scalar : Mirrors Machine.scalar? (Parser.accept? fun
    | .ident word, s => (ScalarType.ofText? word).map (·, s)
    | _, _ => none) := by
  refine peek (.accept? _) fun x => ?_
  rcases x with _ | ⟨t, p⟩
  · exact atEnd (.pure fun _ _ => rfl) fun _ _ => rfl
  · cases t with
    | ident word =>
        cases hword : ScalarType.ofText? word with
        | none =>
            simp only [hword]
            refine before (.pure fun _ _ => rfl) fun env ls log => ?_
            exact Parser.accept?_run_none env rfl (congrArg (Option.map (·, p)) hword)
        | some type =>
            simp only [hword]
            refine take (.pure fun _ _ => rfl) fun env ls log => ?_
            exact Parser.accept?_run_some env rfl (congrArg (Option.map (·, p)) hword)
    | _ => exact before (.pure fun _ _ => rfl) fun _ _ _ => rfl

theorem typeUse (stop : Terminator) : Mirrors (Machine.typeUse stop) (Parser.typeUse stop) := by
  refine andThen scalar fun found => ?_
  cases found with
  | some x => exact .pure fun _ _ => rfl
  | none => exact andThen (typeName stop) fun name => .pure fun _ _ => rfl

theorem fieldKind : Mirrors Machine.fieldKind Parser.fieldKind := by
  refine peekKeyword (.bind (.accept? _)) fun x => ?_
  by_cases hk : keyword? x = some .kwMap
  · rw [hk]
    exact takeAccepted hk fun start => andThen (expectMark _) fun _ =>
      andThen (typeUse _) fun key => andThen (expectMark _) fun _ =>
      andThen (typeUse _) fun value => andThen (expectMark _) fun stop => .pure fun _ _ => rfl
  · refine passKeyword hk ?_
    split
    · rename_i h
      exact absurd h hk
    · exact andThen (typeUse _) fun type => .pure fun _ _ => rfl

theorem field : Mirrors Machine.field Parser.field := by
  exact andThen label fun label => andThen fieldKind fun kind => andThen ident fun name =>
    andThen (expectMark _) fun _ => andThen integer fun number => andThen optionList? fun options =>
    andThen (expectMark _) fun stop => .pure fun _ _ => rfl

/-! ### Ranges and reservations -/

theorem numberRange : Mirrors Machine.numberRange Parser.numberRange := by
  refine andThen integer fun start => andThen (bumpIfKeyword _) fun found => ?_
  cases found with
  | none => exact .pure fun _ _ => rfl
  | some _ =>
      refine andThen (bumpIfKeyword _) fun found => ?_
      cases found with
      | some p => exact .pure fun _ _ => rfl
      | none =>
          refine peek (.bind .peek) fun x => ?_
          rcases x with _ | ⟨t, p⟩
          · exact atEnd (unexpected _) fun _ _ => rfl
          · cases t with
            | int n =>
                exact before (andThen integer fun stop => .pure fun _ _ => rfl) fun _ _ _ => rfl
            | mark mark =>
                cases mark with
                | minus =>
                    exact before (andThen integer fun stop => .pure fun _ _ => rfl) fun _ _ _ => rfl
                | _ => exact before (unexpected _) fun _ _ _ => rfl
            | _ => exact before (unexpected _) fun _ _ _ => rfl

theorem separatedTurn {item : Machine α} {pitem : Parser α} (h : Mirrors item pitem) :
    Mirrors (Machine.separatedTurn item) (Parser.separatedTurn pitem) := by
  refine bind (bumpIfMark _) fun taken found => ?_
  cases found with
  | none =>
      rintro env lo depth s hw rfl
      exact .done hw rfl
  | some p =>
      rintro env lo depth s hw rfl
      exact andThen h (fun a => .pure fun _ _ => rfl) env lo depth s hw rfl

theorem separated {item : Machine α} {pitem : Parser α} (h : Mirrors item pitem) :
    Mirrors (Machine.separated item) (Parser.separated pitem) := by
  rw [Parser.separated_eq]
  exact andThen h fun first => andThen (many (separatedTurn h)) fun rest => .pure fun _ _ => rfl

theorem reservedName : Mirrors Machine.reservedName Parser.reservedName := by
  refine peek (.bind .peek) fun x => ?_
  rcases x with _ | ⟨t, p⟩
  · exact atEnd textLiteral.anywhere fun _ _ => rfl
  · cases t with
    | ident word => exact before ident.anywhere fun _ _ _ => rfl
    | _ => exact before textLiteral.anywhere fun _ _ _ => rfl

theorem reservedStatement : Mirrors Machine.reservedStatement Parser.reservedStatement := by
  rw [Parser.reservedStatement_eq]
  have hkind : Mirrors Machine.reservedKind Parser.reservedKind := by
    refine peek (.bind .peek) fun x => ?_
    rcases x with _ | ⟨t, p⟩
    · exact atEnd (unexpected _) fun _ _ => rfl
    · cases t with
      | int n => exact before (map (separated numberRange) _) fun _ _ _ => rfl
      | float v => exact before (unexpected _) fun _ _ _ => rfl
      | mark mark =>
          cases mark with
          | minus => exact before (map (separated numberRange) _) fun _ _ _ => rfl
          | _ => exact before (unexpected _) fun _ _ _ => rfl
      | _ => exact before (map (separated reservedName) _) fun _ _ _ => rfl
  exact andThen (expectKeyword _) fun start => andThen hkind fun kind =>
    andThen (expectMark _) fun stop => .pure fun _ _ => rfl

theorem extensionsStatement :
    Mirrors Machine.extensionsStatement Parser.extensionsStatement := by
  exact andThen (expectKeyword _) fun start => andThen (separated numberRange) fun ranges =>
    andThen optionList? fun options => andThen (expectMark _) fun stop => .pure fun _ _ => rfl

/-! ### Oneofs and extensions -/

/-- A member that is a field, where one can stand. -/
theorem fieldMember (kind : BodyKind) (f : Field → α) : Mirrors
    (do match ← Machine.peek with
        | some (.ident _, _) | some (.mark .dot, _) => f <$> Machine.field
        | _ => Machine.unexpected (.member kind))
    (do match ← Parser.peek with
        | some (.ident _) | some (.mark .dot) => f <$> Parser.field
        | _ => Parser.unexpected (.member kind)) := by
  refine peek (.bind .peek) fun x => ?_
  rcases x with _ | ⟨t, p⟩
  · exact atEnd (unexpected _) fun _ _ => rfl
  · cases t with
    | ident word => exact before (map field f) fun _ _ _ => rfl
    | mark mark =>
        cases mark with
        | dot => exact before (map field f) fun _ _ _ => rfl
        | _ => exact before (unexpected _) fun _ _ _ => rfl
    | _ => exact before (unexpected _) fun _ _ _ => rfl

theorem oneofMember : Mirrors Machine.oneofMember Parser.oneofMember := by
  refine andThen lookForKeyword fun k? => ?_
  cases k? with
  | none => exact fieldMember _ _
  | some k =>
      cases k with
      | kwOption => exact map optionStatement _
      | _ => exact fieldMember _ _

theorem oneof : Mirrors Machine.oneof Parser.oneof := by
  exact andThen (expectKeyword _) fun start => andThen ident fun name =>
    andThen (body (n := 0) _ Parser.Orderly.oneofMember oneofMember) fun members =>
    .pure fun _ _ => rfl

theorem extendMember : Mirrors Machine.extendMember Parser.extendMember := by
  have hmember := fieldMember .extend id
  simp only [id_map] at hmember
  exact hmember

theorem extend : Mirrors Machine.extend Parser.extend := by
  exact andThen (expectKeyword _) fun start => andThen (typeName _) fun extendee =>
    andThen (body (n := 0) _ Parser.Orderly.extendMember extendMember) fun fields =>
    .pure fun _ _ => rfl

/-! ### Enums -/

theorem enumValue : Mirrors Machine.enumValue Parser.enumValue := by
  exact andThen ident fun name => andThen (expectMark _) fun _ => andThen integer fun number =>
    andThen optionList? fun options => andThen (expectMark _) fun stop => .pure fun _ _ => rfl

/-- A member of an enum that starts with no keyword. -/
theorem valueMember : Mirrors
    (do match ← Machine.peek with
        | some (.ident _, _) => Parser.EnumMember.value <$> Machine.enumValue
        | _ => Machine.unexpected (.member .enum))
    (do match ← Parser.peek with
        | some (.ident _) => .value <$> Parser.enumValue
        | _ => Parser.unexpected (.member .enum)) := by
  refine peek (.bind .peek) fun x => ?_
  rcases x with _ | ⟨t, p⟩
  · exact atEnd (unexpected _) fun _ _ => rfl
  · cases t with
    | ident word => exact before (map enumValue _) fun _ _ _ => rfl
    | _ => exact before (unexpected _) fun _ _ _ => rfl

theorem enumMember : Mirrors Machine.enumMember Parser.enumMember := by
  refine andThen lookForKeyword fun k? => ?_
  cases k? with
  | none => exact valueMember
  | some k =>
      cases k with
      | kwOption => exact map optionStatement _
      | kwReserved => exact map reservedStatement _
      | _ => exact valueMember

theorem enum : Mirrors Machine.enum Parser.enum := by
  exact andThen (expectKeyword _) fun start => andThen ident fun name =>
    andThen (body (n := 0) _ Parser.Orderly.enumMember enumMember) fun members =>
    .pure fun _ _ => rfl

/-! ### Services -/

theorem methodMember : Mirrors Machine.methodMember Parser.methodMember := by
  refine andThen lookForKeyword fun k? => ?_
  cases k? with
  | none => exact unexpected _
  | some k =>
      cases k with
      | kwOption => exact optionStatement
      | _ => exact unexpected _

theorem methodType : Mirrors Machine.methodType Parser.methodType := by
  exact andThen (expectMark _) fun _ => andThen (bumpIfKeyword _) fun streaming =>
    andThen (typeName _) fun type => andThen (expectMark _) fun _ => .pure fun _ _ => rfl

theorem method : Mirrors Machine.method Parser.method := by
  rw [Parser.method_eq]
  have hend : Mirrors Machine.methodEnd Parser.methodEnd := by
    refine peek (.bind .peek) fun x => ?_
    rcases x with _ | ⟨t, p⟩
    · exact atEnd (unexpected _) fun _ _ => rfl
    · cases t with
      | mark mark =>
          cases mark with
          | semicolon => exact take (.pure fun _ _ => rfl) fun _ _ _ => rfl
          | leftBrace =>
              exact before (body (n := 0) _ Parser.Orderly.methodMember methodMember).anywhere
                fun _ _ _ => rfl
          | _ => exact before (unexpected _) fun _ _ _ => rfl
      | _ => exact before (unexpected _) fun _ _ _ => rfl
  exact andThen (expectKeyword _) fun start => andThen ident fun name =>
    andThen methodType fun input => andThen (expectKeyword _) fun _ =>
    andThen methodType fun output => andThen hend fun last => .pure fun _ _ => rfl

theorem serviceMember : Mirrors Machine.serviceMember Parser.serviceMember := by
  refine andThen lookForKeyword fun k? => ?_
  cases k? with
  | none => exact unexpected _
  | some k =>
      cases k with
      | kwOption => exact map optionStatement _
      | kwRpc => exact map method _
      | _ => exact unexpected _

theorem service : Mirrors Machine.service Parser.service := by
  exact andThen (expectKeyword _) fun start => andThen ident fun name =>
    andThen (body (n := 0) _ Parser.Orderly.serviceMember serviceMember) fun members =>
    .pure fun _ _ => rfl

/-! ### Messages -/

theorem messageMember {nested : Machine Message} {pnested : Parser Message}
    (h : Mirrors nested pnested) :
    Mirrors (Machine.messageMember nested) (Parser.messageMember pnested) := by
  refine andThen lookForKeyword fun k? => ?_
  cases k? with
  | none => exact fieldMember _ _
  | some k =>
      cases k with
      | kwMessage => exact map h _
      | kwEnum => exact map enum _
      | kwOneof => exact map oneof _
      | kwExtend => exact map extend _
      | kwOption => exact map optionStatement _
      | kwReserved => exact map reservedStatement _
      | kwExtensions => exact map extensionsStatement _
      | _ => exact fieldMember _ _

/-- The induction is on the depth to which messages are nested. -/
theorem messageWithin (budget : List Lexeme) :
    Mirrors (Machine.messageWithin budget) (Parser.messageWithin budget) := by
  induction budget with
  | nil => exact exhausted
  | cons l budget ih =>
      exact andThen (expectKeyword _) fun start => andThen ident fun name =>
        andThen (body _ (Parser.Orderly.messageMember (Parser.Orderly.messageWithin budget))
          (messageMember ih)) fun members => .pure fun _ _ => rfl

theorem message : Mirrors Machine.message Parser.message :=
  fun env lo depth s hw hs => messageWithin s.remainder.lexemes env lo depth s hw hs

/-! ### Files -/

theorem dialectStatement : Mirrors Machine.dialectStatement Parser.dialectStatement := by
  refine andThen (expectKeyword _) fun start => andThen (expectMark _) fun _ =>
    andThen stringLiteral fun value => ?_
  dsimp only
  split
  · exact bind (addError _) fun _ _ => andThen (expectMark _) fun stop => .pure fun _ _ => rfl
  · exact andThen (expectMark _) fun stop => .pure fun _ _ => rfl

theorem packageStatement : Mirrors Machine.packageStatement Parser.packageStatement := by
  exact andThen (expectKeyword _) fun start => andThen (dottedName _) fun name =>
    andThen (expectMark _) fun stop => .pure fun _ _ => rfl

/-- The word for a kind of import, which a look has found. -/
theorem importWord (k : Keyword) (kind : ImportKind) :
    Tracks (fun s => ∃ x, s.Holds x ∧ keyword? x = some k)
      (do
        let x ← bump
        Pure.pure (some (kind, x.2)))
      (do
        let s ← Parser.expectKeyword k
        Pure.pure (some (kind, s))) fun a b _ => a = b := by
  rintro env lo depth s hw ⟨x, hs, hk⟩
  refine takeExpected hk ?_ env lo depth s hw hs
  exact fun p => .pure fun _ _ => rfl

theorem importTarget : Tracks pre
    (do match ← Machine.peek with
        | some (.string _, _) => Pure.pure none
        | _ => Machine.unexpected .importTarget)
    (do match ← Parser.peek with
        | some (.string _) => Pure.pure (none : Option (ImportKind × Span))
        | _ => Parser.unexpected .importTarget) fun a b _ => a = b := by
  refine peek (.bind .peek) fun x => ?_
  rcases x with _ | ⟨t, p⟩
  · exact atEnd (unexpected _) fun _ _ => rfl
  · cases t with
    | string bytes => exact before (.pure fun _ _ => rfl) fun _ _ _ => rfl
    | _ => exact before (unexpected _) fun _ _ _ => rfl

theorem importKind : Mirrors Machine.importKind? Parser.importKind? := by
  refine bindSame findKeyword fun k? => ?_
  cases k? with
  | none => exact importTarget
  | some k =>
      cases k with
      | kwWeak => exact importWord _ _
      | kwPublic => exact importWord _ _
      | _ => exact importTarget

theorem importStatement : Mirrors Machine.importStatement Parser.importStatement := by
  refine andThen (expectKeyword _) fun start => andThen importKind fun kind =>
    andThen textLiteral fun path => ?_
  split
  · exact bind (addError _) fun _ _ => andThen (expectMark _) fun stop => .pure fun _ _ => rfl
  · exact andThen (expectMark _) fun stop => .pure fun _ _ => rfl

theorem statement : Mirrors Machine.statement Parser.statement := by
  refine andThen lookForKeyword fun k? => ?_
  cases k? with
  | none => exact unexpected _
  | some k =>
      cases k with
      | kwSyntax => exact dialectStatement
      | kwPackage => exact map packageStatement _
      | kwImport => exact map importStatement _
      | kwOption => exact map optionStatement _
      | kwMessage => exact map message _
      | kwEnum => exact map enum _
      | kwExtend => exact map extend _
      | kwService => exact map service _
      | _ => exact unexpected _

theorem addErrors (ds : List Diagnostic) :
    Tracks pre (ds.forM Machine.addError) (Parser.reportAll ds) fun _ _ _ => True := by
  rw [Parser.reportAll]
  induction ds generalizing pre with
  | nil => exact .pure fun _ _ => trivial
  | cons d ds ih =>
      exact bind (addError d) fun _ _ => ih

/--
A closing brace where a statement should begin is reported and not taken, so the machine holds it
when the statement has failed, and takes it alone.
-/
theorem strayBrace (draft : Parser.Draft) {p : Span} :
    Tracks (State.Holds (some (.mark .rightBrace, p)))
      (do
        let s ← Machine.attempt Machine.statement
        finish draft (.mark .rightBrace) s)
      (Parser.nextStatement draft) fun a b _ => a = b := by
  intro env lo depth s hw hs
  have hpeek : Machine.peek env.source s = .done (some (.mark .rightBrace, p)) s := by
    rw [Machine.peek, hs.buffer]
  have hkeyword : Machine.peekKeyword env.source s = .done none s := by
    rw [Machine.peekKeyword, bind_run, hpeek]
    rfl
  have hunexpected : (Machine.unexpected .statement : Machine Statement) env.source s = .failed
      { s with log := .unexpectedToken .statement (.mark .rightBrace) p :: s.log } := by
    rw [Machine.unexpected, bind_run, hpeek]
    rfl
  have hattempt : Machine.attempt Machine.statement env.source s = .done none
      { s with log := .unexpectedToken .statement (.mark .rightBrace) p :: s.log } := by
    rw [Machine.attempt, Machine.statement, bind_run, hkeyword]
    dsimp only
    rw [hunexpected]
    dsimp only
    rw [hw.running]
    rfl
  have hs' := hs.report (.unexpectedToken .statement (.mark .rightBrace) p)
  rw [bind_run, hattempt, hs.remainder_some, Parser.nextStatement_rightBrace rfl]
  dsimp only
  rw [finish, if_pos rfl, bind_run, bump_run hs']
  exact .done ((hw.report _).bump hs') rfl

/-- A statement of a file. -/
theorem nextStatement (draft : Parser.Draft) :
    Mirrors (Machine.nextStatement draft) (Parser.nextStatement draft) := by
  have hfinish : ∀ t, t ≠ .mark .rightBrace → ∀ s?, Tracks (fun _ => True) (finish draft t s?)
      (Parser.finish draft s?) fun a b _ => a = b := by
    intro t ht s?
    cases s? with
    | some s => exact bind (addErrors _) fun _ _ => .pure fun _ _ => rfl
    | none =>
        simp only [finish, if_neg ht]
        exact andThen recover fun _ => .pure fun _ _ => rfl
  have hstatement : ∀ t p, t ≠ .mark .rightBrace →
      (∀ env ls log, Parser.nextStatement draft env ⟨.token t p :: ls, log⟩ =
        (Parser.attempt Parser.statement >>= Parser.finish draft) env ⟨.token t p :: ls, log⟩) →
      Tracks (State.Holds (some (t, p)))
        (Machine.attempt Machine.statement >>= finish draft t) (Parser.nextStatement draft)
        fun a b _ => a = b :=
    fun t p ht hq => before (andThen (attempt statement) (hfinish t ht)) hq
  refine peek (.bind .peek) fun x => ?_
  rcases x with _ | ⟨t, p⟩
  · exact atEnd (.pure fun _ _ => rfl) fun _ _ => rfl
  · cases t with
    | mark mark =>
        cases mark with
        | semicolon => exact take (.pure fun _ _ => rfl) fun _ _ _ => rfl
        | rightBrace => exact strayBrace draft
        | _ => exact hstatement _ _ (by simp) fun _ _ _ => rfl
    | _ => exact hstatement _ _ (by simp) fun _ _ _ => rfl

theorem file : Mirrors Machine.file Parser.file := by
  exact andThen (iterateSame nextStatement _) fun draft => .pure fun _ _ => rfl

end Machine.Tracks

end ProtoSchema
