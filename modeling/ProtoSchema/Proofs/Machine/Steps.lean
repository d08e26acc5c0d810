/-
A machine that reads token by token, and can fail at it.

The parser is written so that nothing it does can go wrong: it looks at what is there, and takes
what it has seen.  A machine that works in place cannot be written like this.  It keeps the token
that it looked at in a buffer until it is taken; it counts the bodies that are open, up where one
begins and down where it ends; it remembers that a body was not closed.  Each of these takes
something for granted that was established elsewhere: that a token was looked at, that a body is
open.  Where it is not so there is a fault, and a fault ends everything.

Here are the machine, the steps that it is made of, its loops and its way of recovering from
errors.  The loops count their turns off against a budget, as those of the parser do.
-/
import ProtoSchema.Grammar.File

namespace ProtoSchema

/-- What must not happen. -/
inductive Fault where
  /-- A token is taken, and there is none in the buffer. -/
  | emptyBuffer
  /-- A token that was taken is of none of the kinds that were looked for. -/
  | unreachable
  /-- A count of open braces or bodies goes below zero. -/
  | underflow
  /-- A slice of the source ends before it starts, or splits a character. -/
  | badSlice
  /-- A scope is left, and none was entered. -/
  | noScope
  /-- A file is assembled, and some scope was not left. -/
  | openScope
  /-- A number is too large for a signed integer of 32 bits. -/
  | overflow
  /-- There is a report to make, and nothing to report. -/
  | emptyReport
  /-- A loop has no turns left. -/
  | endless
deriving DecidableEq, Repr

namespace Machine

/-- What a machine keeps. -/
structure State where
  /-- What the scanner has left. -/
  lexemes : List Lexeme
  /-- A token that was looked at and not taken. -/
  buffer : Option (Token × Span)
  /-- The number of bodies that are open. -/
  depth : Nat
  /-- Whether the source has ended within a body. -/
  fatal : Bool
  /-- What was reported so far, the latest first. -/
  log : List Diagnostic
deriving DecidableEq, Repr

namespace State

/-- A machine that has not begun. -/
def start (source : List Char) : State := ⟨scan source, none, 0, false, []⟩

/-- What is left, with the token in the buffer, as a parser has it. -/
def remainder (s : State) : Remainder :=
  ⟨(s.buffer.map fun x => Lexeme.token x.1 x.2).toList ++ s.lexemes, s.log⟩

/-- Scans up to the next token, or to the end, and keeps what there is to report. -/
def scanned (s : State) : (log : List Diagnostic) → List Lexeme → State
  | log, [] => { s with lexemes := [], buffer := none, log }
  | log, .note d :: ls => scanned s (d :: log) ls
  | log, .illegal c p :: ls => scanned s (.invalidToken c p :: log) ls
  | log, .token t p :: ls => { s with lexemes := ls, buffer := some (t, p), log }

end State

/-- What comes of running a machine. -/
inductive Result (α : Type) where
  | done (value : α) (s : State)
  /-- An error, which has been reported. -/
  | failed (s : State)
  | fault (f : Fault)
deriving DecidableEq, Repr

end Machine

open Machine

/-- A machine that makes a value of type `α`, given the source. -/
def Machine (α : Type) : Type := (source : List Char) → State → Result α

namespace Machine

variable {α β : Type}

protected def pure (a : α) : Machine α := fun _ s => .done a s

protected def bind (m : Machine α) (f : α → Machine β) : Machine β := fun source s =>
  match m source s with
  | .done a s => f a source s
  | .failed s => .failed s
  | .fault f => .fault f

instance : Monad Machine where
  pure := Machine.pure
  bind := Machine.bind

theorem bind_run (m : Machine α) (f : α → Machine β) (source : List Char) (s : State) :
    (m >>= f) source s =
      (match m source s with
       | .done a s => f a source s
       | .failed s => .failed s
       | .fault f => .fault f) := rfl

instance : LawfulMonad Machine :=
  LawfulMonad.mk' _
    (by
      intro α m
      funext source s
      show (m >>= fun a => pure a) source s = m source s
      rw [bind_run]
      cases m source s <;> rfl)
    (fun _ _ => rfl)
    (by
      intro α β γ m f g
      funext source s
      simp only [bind_run]
      cases m source s <;> rfl)

/-! ### Single steps -/

/-- Something that must not happen. -/
def fault (f : Fault) : Machine α := fun _ _ => .fault f

/-- An error, which has been reported. -/
def fail : Machine α := fun _ s => .failed s

def addError (d : Diagnostic) : Machine Unit := fun _ s => .done () { s with log := d :: s.log }

/-- A body begins. -/
def deepen : Machine Unit := fun _ s => .done () { s with depth := s.depth + 1 }

/-- A body ends. -/
def rise : Machine Unit := fun _ s =>
  match s.depth with
  | 0 => .fault .underflow
  | n + 1 => .done () { s with depth := n }

/-- One less, if there is one. -/
def decrement : Nat → Machine Nat
  | 0 => fault .underflow
  | n + 1 => pure n

/-- The source has ended within a body. -/
def giveUp : Machine α := fun _ s => .failed { s with fatal := true }

/-! ### Tokens -/

/-- The next token, which is kept in the buffer, or nothing at the end of the source. -/
def peek : Machine (Option (Token × Span)) := fun _ s =>
  match s.buffer with
  | some x => .done (some x) s
  | none =>
    let s := s.scanned s.log s.lexemes
    .done s.buffer s

/-- Takes the token in the buffer. -/
def bump : Machine (Token × Span) := fun _ s =>
  match s.buffer with
  | some x => .done x { s with buffer := none }
  | none => .fault .emptyBuffer

/-- Reports what was found in place of what was expected; a missing end only outside of bodies. -/
def complain (expected : Expectation) (found : Option (Token × Span)) : Machine Unit :=
  fun source s =>
    match found with
    | some (t, p) => addError (.unexpectedToken expected t p) source s
    | none =>
      if 0 < s.depth then .done () s
      else addError (.unexpectedEof expected (.point (Utf8.size source))) source s

/-- Reports what was expected, and fails. -/
def unexpected (expected : Expectation) : Machine α := do
  let found ← peek
  complain expected found
  fail

/-- What follows something unexpected does not matter. -/
theorem unexpected_bind (e : Expectation) (f : α → Machine β) :
    unexpected e >>= f = unexpected e := by
  rw [unexpected, unexpected, bind_assoc]
  refine congrArg (peek >>= ·) (funext fun found => ?_)
  rw [bind_assoc]
  rfl

/-- Takes a mark, which must come next. -/
def expectMark (p : Punctuation) : Machine Span := do
  match ← peek with
  | some (t, s) => do
    if t = .mark p then do
      let _ ← bump
      pure s
    else unexpected (.mark p)
  | none => unexpected (.mark p)

/-- Takes a mark if it comes next. -/
def bumpIfMark (p : Punctuation) : Machine Bool := do
  match ← peek with
  | some (t, _) => do
    if t = .mark p then do
      let _ ← bump
      pure true
    else pure false
  | none => pure false

/-- The keyword that the next token is, if it is one. -/
def peekKeyword : Machine (Option Keyword) := do
  match ← peek with
  | some (.ident word, _) => pure (Keyword.ofText? word)
  | _ => pure none

/-- Takes a keyword if it comes next. -/
def bumpIfKeyword (k : Keyword) : Machine (Option Span) := do
  match ← peek with
  | some (.ident word, s) => do
    if word = k.text then do
      let _ ← bump
      pure (some s)
    else pure none
  | _ => pure none

/-- Takes a keyword, which must come next. -/
def expectKeyword (k : Keyword) : Machine Span := do
  match ← bumpIfKeyword k with
  | some s => pure s
  | none => unexpected (.keyword k)

/-! ### Loops -/

/-- What a loop yields, with one turn for each lexeme of a budget and a last one to stop. -/
def collect (turn : Machine (Parser.Turn α)) : (budget : List Lexeme) → Machine (List α)
  | [] => do
    match ← turn with
    | .stop => pure []
    | _ => fault .endless
  | _ :: budget => do
    match ← turn with
    | .stop => pure []
    | .skip => collect turn budget
    | .yield a => do
      let as ← collect turn budget
      pure (a :: as)

/-- What a loop yields. -/
def many (turn : Machine (Parser.Turn α)) : Machine (List α) := fun source s =>
  collect turn s.remainder.lexemes source s

/-- A value that is changed turn by turn, until a turn gives nothing. -/
def evolve (turn : β → Machine (Option β)) : (budget : List Lexeme) → β → Machine β
  | [], b => do
    match ← turn b with
    | none => pure b
    | some _ => fault .endless
  | _ :: budget, b => do
    match ← turn b with
    | none => pure b
    | some b => evolve turn budget b

/-- A value that is changed turn by turn. -/
def iterate (turn : β → Machine (Option β)) (b : β) : Machine β := fun source s =>
  evolve turn s.remainder.lexemes b source s

/-! ### Recovery -/

/-- A machine whose error is nothing, unless the source has ended within a body. -/
def attempt (m : Machine α) : Machine (Option α) := fun source s =>
  match m source s with
  | .done a s => .done (some a) s
  | .failed s => if s.fatal then .failed s else .done none s
  | .fault f => .fault f

/-- A turn of the loop that skips to the end of a statement, at some depth of braces. -/
def skipTurn (depth : Nat) : Machine (Option Nat) := do
  match ← peek with
  | some (.mark .semicolon, _) => do
    let _ ← bump
    pure (if depth = 0 then none else some depth)
  | some (.mark .rightBrace, _) => do
    if depth = 0 then pure none
    else do
      let _ ← bump
      let depth ← decrement depth
      pure (if depth = 0 then none else some depth)
  | some (.mark .leftBrace, _) => do
    let _ ← bump
    pure (some (depth + 1))
  | some _ => do
    let _ ← bump
    pure (some depth)
  | none => pure none

/-- Skips to the end of a statement: past a semicolon or a block, or up to a closing brace. -/
def recover : Machine Unit := do
  let _ ← iterate skipTurn 0
  pure ()

/-- A turn that yields a member, or skips it if it fails. -/
def memberTurn (member : Machine α) : Machine (Parser.Turn α) := do
  match ← attempt member with
  | some m => pure (.yield m)
  | none => do
    recover
    pure .skip

/-- A turn of the loop over the members of a body, which stops before the closing brace. -/
def bodyTurn (kind : BodyKind) (opening : Span) (member : Machine α) :
    Machine (Parser.Turn α) := do
  match ← peek with
  | some (.mark .rightBrace, _) => pure .stop
  | some (.mark .semicolon, _) => do
    let _ ← bump
    pure .skip
  | some _ => memberTurn member
  | none => do
    addError (.unterminatedBody kind opening)
    giveUp

/-- The members of a body, and the place of its closing brace. -/
def body (kind : BodyKind) (member : Machine α) : Machine (List α × Span) := do
  let opening ← expectMark .leftBrace
  deepen
  let members ← many (bodyTurn kind opening member)
  let (_, closing) ← bump
  rise
  pure (members, closing)

end Machine

end ProtoSchema
