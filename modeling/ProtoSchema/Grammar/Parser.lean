/-
Parsers over the lexemes of a source.

A parser looks one token ahead.  It reads from the list of lexemes that are left and
keeps a log of what there was to report.  Notes of the scanner, and characters that
start no token, stand in the list before the token they precede; they move to the log
when that token is first looked at.  So the log is in the order of discovery, whatever
else a parser reports in between.

A parser that cannot go on halts for one of three reasons.  A mismatch has been
reported and can be recovered from; a body that is not closed cannot.  The third reason
is that a loop has run out of turns.  A loop counts its turns off against the lexemes that
were left when it began, and every turn but the last takes at least one, so this never
happens.
-/
import ProtoSchema.Token.Scan

namespace ProtoSchema

/-- What a parser knows about its surroundings. -/
structure Surroundings where
  /-- The text that is parsed. -/
  source : List Char
  /-- Whether some body is open. -/
  inBody : Bool

/-- What is left to parse, and what was reported so far, the latest first. -/
structure Remainder where
  lexemes : List Lexeme
  log : List Diagnostic
deriving DecidableEq, Repr

namespace Remainder

/-- Moves notes and illegal characters to the log, up to the next token or the end. -/
def settleWith : List Diagnostic → List Lexeme → Remainder
  | log, .note d :: ls => settleWith (d :: log) ls
  | log, .illegal c s :: ls => settleWith (.invalidToken c s :: log) ls
  | log, ls => ⟨ls, log⟩

def settle (r : Remainder) : Remainder := settleWith r.log r.lexemes

end Remainder

/-- Why a parser cannot go on. -/
inductive Halt where
  /-- Something unexpected, which has been reported unless the end of a body is missing. -/
  | mismatch
  /-- The source ends within a body. -/
  | unclosed
  /-- A loop has no turns left. -/
  | exhausted
deriving DecidableEq, Repr

inductive Outcome (α : Type) where
  | done (value : α) (rest : Remainder)
  | halted (reason : Halt) (rest : Remainder)
deriving DecidableEq, Repr

/-- A parser of values of type `α`. -/
def Parser (α : Type) : Type := Surroundings → Remainder → Outcome α

namespace Parser

variable {α β : Type}

protected def pure (a : α) : Parser α := fun _ r => .done a r

protected def bind (p : Parser α) (f : α → Parser β) : Parser β := fun env r =>
  match p env r with
  | .done a r => f a env r
  | .halted h r => .halted h r

instance : Monad Parser where
  pure := Parser.pure
  bind := Parser.bind

theorem bind_run (p : Parser α) (f : α → Parser β) (env : Surroundings) (r : Remainder) :
    (p >>= f) env r =
      (match p env r with
       | .done a r => f a env r
       | .halted h r => .halted h r) := rfl

instance : LawfulMonad Parser :=
  LawfulMonad.mk' _
    (by
      intro α p
      funext env r
      show (p >>= fun a => pure a) env r = p env r
      rw [bind_run]
      cases p env r <;> rfl)
    (fun _ _ => rfl)
    (by
      intro α β γ p f g
      funext env r
      simp only [bind_run]
      cases p env r <;> rfl)

/-! ### Single tokens -/

/-- Halts for a reason. -/
def halt (h : Halt) : Parser α := fun _ r => .halted h r

/-- Reports a diagnostic. -/
def report (d : Diagnostic) : Parser Unit := fun _ r => .done () { r with log := d :: r.log }

/-- The next token, which stays where it is, or nothing at the end of the source. -/
def peek : Parser (Option Token) := fun _ r =>
  let r := r.settle
  match r.lexemes with
  | .token t _ :: _ => .done (some t) r
  | _ => .done none r

/-- Takes the next token if it is a wanted one. -/
def accept? (want : Token → Span → Option α) : Parser (Option α) := fun _ r =>
  let r := r.settle
  match r.lexemes with
  | .token t s :: ls =>
    match want t s with
    | some a => .done (some a) { r with lexemes := ls }
    | none => .done none r
  | _ => .done none r

/--
Reports what was expected, and halts.  Within a body a missing end is not reported
here, because the body that is not closed will be.
-/
def unexpected (expected : Expectation) : Parser α := fun env r =>
  let r := r.settle
  match r.lexemes with
  | .token t s :: _ => .halted .mismatch { r with log := .unexpectedToken expected t s :: r.log }
  | _ =>
    if env.inBody then .halted .mismatch r
    else
      let stop := Span.point (Utf8.size env.source)
      .halted .mismatch { r with log := .unexpectedEof expected stop :: r.log }

/-- Takes a wanted token, which must be there. -/
def require (expected : Expectation) (want : Token → Span → Option α) : Parser α := do
  match ← accept? want with
  | some a => pure a
  | none => unexpected expected

/-- Takes a mark if it comes next. -/
def acceptMark? (p : Punctuation) : Parser (Option Span) :=
  accept? fun t s => if t = .mark p then some s else none

/-- Takes a mark, which must come next. -/
def expectMark (p : Punctuation) : Parser Span := do
  match ← acceptMark? p with
  | some s => pure s
  | none => unexpected (.mark p)

/-- The keyword that the next token is, if it is one. -/
def peekKeyword : Parser (Option Keyword) := do
  match ← peek with
  | some (.ident word) => pure (Keyword.ofText? word)
  | _ => pure none

/-- Takes a keyword if it comes next. -/
def acceptKeyword? (k : Keyword) : Parser (Option Span) :=
  accept? fun t s => if t = .ident k.text then some s else none

/-- Takes a keyword, which must come next. -/
def expectKeyword (k : Keyword) : Parser Span := do
  match ← acceptKeyword? k with
  | some s => pure s
  | none => unexpected (.keyword k)

/-! ### Loops -/

/-- What one turn of a loop does. -/
inductive Turn (α : Type) where
  | stop
  | skip
  | yield (a : α)
deriving DecidableEq, Repr

/--
What a loop yields.  It takes at most one turn for each lexeme of the budget, and a last
one to stop.
-/
def collect (turn : Parser (Turn α)) : (budget : List Lexeme) → Parser (List α)
  | [] => do
    match ← turn with
    | .stop => pure []
    | _ => halt .exhausted
  | _ :: budget => do
    match ← turn with
    | .stop => pure []
    | .skip => collect turn budget
    | .yield a => do
      let as ← collect turn budget
      pure (a :: as)

/-- What a loop yields, if every turn but the last takes a lexeme. -/
def many (turn : Parser (Turn α)) : Parser (List α) := fun env r =>
  collect turn r.lexemes env r

/-- A value that is changed turn by turn, until a turn gives nothing. -/
def evolve (turn : β → Parser (Option β)) : (budget : List Lexeme) → β → Parser β
  | [], b => do
    match ← turn b with
    | none => pure b
    | some _ => halt .exhausted
  | _ :: budget, b => do
    match ← turn b with
    | none => pure b
    | some b => evolve turn budget b

/-- A value that is changed turn by turn, if every turn but the last takes a lexeme. -/
def iterate (turn : β → Parser (Option β)) (b : β) : Parser β := fun env r =>
  evolve turn r.lexemes b env r

/-! ### Recovery -/

/-- A parser whose mismatch is nothing, and not a reason to halt. -/
def attempt (p : Parser α) : Parser (Option α) := fun env r =>
  match p env r with
  | .done a r => .done (some a) r
  | .halted .mismatch r => .done none r
  | .halted h r => .halted h r

/--
Drops lexemes to the end of a statement: past a semicolon or a block in braces, or up to
a brace that closes more than was opened.
-/
def skipStatement : (depth : Nat) → List Diagnostic → List Lexeme → Remainder
  | _, log, [] => ⟨[], log⟩
  | depth, log, .note d :: ls => skipStatement depth (d :: log) ls
  | depth, log, .illegal c s :: ls => skipStatement depth (.invalidToken c s :: log) ls
  | depth, log, .token t s :: ls =>
    if t = .mark .leftBrace then skipStatement (depth + 1) log ls
    else
      match depth with
      | 0 =>
        if t = .mark .semicolon then ⟨ls, log⟩
        else if t = .mark .rightBrace then ⟨.token t s :: ls, log⟩
        else skipStatement 0 log ls
      | depth + 1 =>
        if t = .mark .rightBrace then
          if depth = 0 then ⟨ls, log⟩ else skipStatement depth log ls
        else skipStatement (depth + 1) log ls

/-- Goes on behind the statement in which something unexpected stood. -/
def recover : Parser Unit := fun _ r => .done () (skipStatement 0 r.log r.lexemes)

/-- A parser within a body. -/
def inside (p : Parser α) : Parser α := fun env r => p { env with inBody := true } r

/--
The members of a body and the place of its closing brace.  A member that does not parse
is skipped, and so are empty statements.
-/
def body (kind : BodyKind) (member : Parser α) : Parser (List α × Span) := do
  let opening ← expectMark .leftBrace
  let members ← inside <| many do
    match ← peek with
    | none => do
      report (.unterminatedBody kind opening)
      halt .unclosed
    | some (.mark .rightBrace) => pure .stop
    | some (.mark .semicolon) => do
      let _ ← acceptMark? .semicolon
      pure .skip
    | some _ => do
      match ← attempt member with
      | some m => pure (.yield m)
      | none => do
        recover
        pure .skip
  let closing ← expectMark .rightBrace
  pure (members, closing)

end Parser

end ProtoSchema
