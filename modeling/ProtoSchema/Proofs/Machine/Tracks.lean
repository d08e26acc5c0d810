/-
A machine that follows a parser.

What a machine has left is what a parser has left: the token in the buffer, if there is one, and
the lexemes behind it.  `Tracks` compares a machine and a parser by what they do from there.  If
the parser is done, so is the machine, with the same value, the same left over and the same log;
where the parser halts, the machine fails.  A fault is neither.  So a machine that tracks a
parser has no faults, unless the parser runs out of turns.

What a machine takes for granted depends on what it did before.  Therefore the comparison is
made from the states that satisfy `pre`, and says of the states that are reached, and of the
values, that they satisfy `post`.  All that is ever needed is which token the buffer holds:
looking for the next token establishes this, taking the token relies on it, and a loop that stops
before a mark leaves it in the buffer.

Looking settles the remainder, which parsers do as well before they take or refuse a token.  A
parser that begins like this does not care whether it was done before.
-/
import ProtoSchema.Proofs.Machine.Grammar
import ProtoSchema.Proofs.Layout.Lines
import ProtoSchema.Proofs.Parsing.Progress

namespace ProtoSchema

open Remainder

namespace Parser

variable {α β : Type}

/-- A parser that begins with a look at the next token. -/
def Settles (p : Parser α) : Prop := ∀ env r, p env r.settle = p env r

namespace Settles

theorem peek : Settles peek := fun env r => by
  rw [Parser.peek, settle_settle, Parser.peek]

theorem accept? (want : Token → Span → Option α) : Settles (accept? want) := fun env r => by
  rw [Parser.accept?, settle_settle, Parser.accept?]

theorem unexpected (e : Expectation) : Settles (unexpected e : Parser α) := fun env r => by
  rw [Parser.unexpected, settle_settle, Parser.unexpected]

theorem bind {p : Parser α} {f : α → Parser β} (h : Settles p) : Settles (p >>= f) :=
  fun env r => by rw [bind_run, bind_run, h]

end Settles

/-- A turn that yields a member, or skips it if it does not parse. -/
def memberTurn (member : Parser α) : Parser (Turn α) := do
  match ← attempt member with
  | some m => pure (.yield m)
  | none => do
    recover
    pure .skip

end Parser

namespace Machine

variable {α β : Type} {env : Surroundings} {lo depth : Nat} {s s' : State} {t : Token} {p : Span}

/-! ### States -/

/-- The buffer holds the next token, or nothing because the source has ended. -/
structure State.Holds (x : Option (Token × Span)) (s : State) : Prop where
  buffer : s.buffer = x
  ends : x = none → s.lexemes = []

theorem State.Holds.remainder_none (h : s.Holds none) : s.remainder = ⟨[], s.log⟩ := by
  rw [remainder, h.buffer, h.ends rfl]
  rfl

theorem State.Holds.remainder_some (h : s.Holds (some (t, p))) :
    s.remainder = ⟨.token t p :: s.lexemes, s.log⟩ := by
  rw [remainder, h.buffer]
  rfl

theorem State.Holds.report {x : Option (Token × Span)} (h : s.Holds x) (d : Diagnostic) :
    { s with log := d :: s.log }.Holds x := ⟨h.buffer, h.ends⟩

/--
A machine at work in the surroundings of a parser, at some depth of bodies.  What it has left
lies behind an offset, and has its places in the source.
-/
structure Works (env : Surroundings) (lo depth : Nat) (s : State) : Prop where
  deep : s.depth = depth
  inBody : env.inBody = decide (0 < depth)
  running : s.fatal = false
  ordered : InOrder lo (spans s.remainder.lexemes)
  fits : ∀ p ∈ spans s.remainder.lexemes, p.Fits env.source

namespace Works

/-- Having read some lexemes, a machine works on. -/
theorem reads (seg : List Lexeme) (h : Works env lo depth s) (hdepth : s'.depth = s.depth)
    (hfatal : s'.fatal = s.fatal) (hs : s.remainder.lexemes = seg ++ s'.remainder.lexemes) :
    Works env lo depth s' := by
  have hordered := h.ordered
  have hfits := h.fits
  rw [hs] at hordered hfits
  rw [spans_append] at hfits
  exact ⟨hdepth.trans h.deep, h.inBody, hfatal.trans h.running, hordered.append.2.1,
    fun p hp => hfits p (List.mem_append_right _ hp)⟩

theorem report (h : Works env lo depth s) (d : Diagnostic) :
    Works env lo depth { s with log := d :: s.log } :=
  h.reads [] rfl rfl rfl

/-- Without the token in the buffer. -/
theorem bump (h : Works env lo depth s) (hs : s.Holds (some (t, p))) :
    Works env lo depth { s with buffer := none } :=
  h.reads [.token t p] rfl rfl (congrArg Remainder.lexemes hs.remainder_some)

/-- What comes behind the token in the buffer lies behind it. -/
theorem behind (h : Works env lo depth s) (hs : s.Holds (some (t, p))) :
    lo ≤ p.start ∧ p.Fits env.source ∧ Works env p.stop depth { s with buffer := none } := by
  have hordered := h.ordered
  have hfits := h.fits
  have hleft : s.remainder.lexemes = .token t p :: s.lexemes :=
    congrArg Remainder.lexemes hs.remainder_some
  rw [hleft] at hordered hfits
  have hcons : InOrder lo (p :: spans s.lexemes) := hordered
  obtain ⟨hlo, -, hrest⟩ := hcons.of_cons
  have hbump := h.bump hs
  exact ⟨hlo, hfits p (.head _), hbump.deep, hbump.inBody, hbump.running, hrest,
    fun q hq => hfits q (.tail _ hq)⟩

theorem mono {lo' : Nat} (hlo : lo ≤ lo') (h : Works env lo' depth s) : Works env lo depth s :=
  ⟨h.deep, h.inBody, h.running, h.ordered.mono hlo, h.fits⟩

end Works

/-! ### Results and outcomes -/

/-- What a machine makes of what a parser makes of it. -/
inductive Agrees (env : Surroundings) (lo depth : Nat) (post : α → β → State → Prop) :
    Result α → Outcome β → Prop
  | done {a : α} {b : β} {s : State} (works : Works env lo depth s) (holds : post a b s) :
      Agrees env lo depth post (.done a s) (.done b s.remainder)
  | mismatch {s : State} (works : Works env lo depth s) :
      Agrees env lo depth post (.failed s) (.halted .mismatch s.remainder)
  | unclosed {s : State} (fatal : s.fatal = true) :
      Agrees env lo depth post (.failed s) (.halted .unclosed s.remainder)
  | exhausted {result : Result α} {r : Remainder} :
      Agrees env lo depth post result (.halted .exhausted r)

namespace Agrees

variable {α' β' : Type} {mid : α → β → State → Prop} {post : α' → β' → State → Prop}

theorem mono {lo' : Nat} {result : Result α'} {o : Outcome β'} (hlo : lo ≤ lo')
    (h : Agrees env lo' depth post result o) : Agrees env lo depth post result o := by
  cases h with
  | done works holds => exact .done (works.mono hlo) holds
  | mismatch works => exact .mismatch (works.mono hlo)
  | unclosed fatal => exact .unclosed fatal
  | exhausted => exact .exhausted

theorem bind {m : Machine α} {p : Parser β} {f : α → Machine α'} {g : β → Parser β'}
    (hm : Agrees env lo depth mid (m env.source s) (p env s.remainder))
    (hf : ∀ a b s, Works env lo depth s → mid a b s →
      Agrees env lo depth post (f a env.source s) (g b env s.remainder)) :
    Agrees env lo depth post ((m >>= f) env.source s) ((p >>= g) env s.remainder) := by
  rw [bind_run, Parser.bind_run]
  generalize m env.source s = result at hm ⊢
  generalize p env s.remainder = o at hm ⊢
  cases hm with
  | done works holds => exact hf _ _ _ works holds
  | mismatch works => exact .mismatch works
  | unclosed fatal => exact .unclosed fatal
  | exhausted => exact .exhausted

end Agrees

/-! ### Machines and parsers -/

/-- From the states that satisfy `pre`, a machine does what a parser does, and reaches `post`. -/
def Tracks (pre : State → Prop) (m : Machine α) (p : Parser β) (post : α → β → State → Prop) :
    Prop :=
  ∀ env lo depth s, Works env lo depth s → pre s →
    Agrees env lo depth post (m env.source s) (p env s.remainder)

/-- A machine does what a parser does, from every state, and makes the same of it. -/
abbrev Mirrors (m : Machine α) (p : Parser α) : Prop :=
  Tracks (fun _ => True) m p fun a b _ => a = b

namespace Tracks

variable {α' β' : Type} {pre : State → Prop} {m : Machine α} {q : Parser β}
  {post : α → β → State → Prop}

theorem anywhere (h : Tracks (fun _ => True) m q post) : Tracks pre m q post :=
  fun env lo depth s hw _ => h env lo depth s hw trivial

theorem pure {a : α} {b : β} (h : ∀ s, pre s → post a b s) :
    Tracks pre (Pure.pure a) (Pure.pure b) post :=
  fun _ _ _ s hw hs => .done hw (h s hs)

theorem bind {mid : α' → β' → State → Prop} {n : Machine α'} {f : α' → Machine α}
    {p : Parser β'} {g : β' → Parser β} (hn : Tracks pre n p mid)
    (hf : ∀ a b, Tracks (mid a b) (f a) (g b) post) : Tracks pre (n >>= f) (p >>= g) post :=
  fun env lo depth s hw hs =>
    (hn env lo depth s hw hs).bind fun a b s hw hs => hf a b env lo depth s hw hs

/-- Where the values are the same, both go on with this value. -/
theorem bindSame {mid : α' → State → Prop} {n : Machine α'} {f : α' → Machine α} {p : Parser α'}
    {g : α' → Parser β} (hn : Tracks pre n p fun a b s => a = b ∧ mid a s)
    (hf : ∀ a, Tracks (mid a) (f a) (g a) post) : Tracks pre (n >>= f) (p >>= g) post :=
  bind hn fun a b env lo depth s hw hs => by
    obtain ⟨rfl, hs⟩ := hs
    exact hf a env lo depth s hw hs

theorem imp {post' : α → β → State → Prop} (h : Tracks pre m q post)
    (hpost : ∀ a b s, post a b s → post' a b s) : Tracks pre m q post' := by
  intro env lo depth s hw hs
  have ha := h env lo depth s hw hs
  generalize m env.source s = result at ha ⊢
  generalize q env s.remainder = o at ha ⊢
  cases ha with
  | done works holds => exact .done works (hpost _ _ _ holds)
  | mismatch works => exact .mismatch works
  | unclosed fatal => exact .unclosed fatal
  | exhausted => exact .exhausted

/-- Behind a machine that mirrors a parser both go on with the same value. -/
theorem andThen {n : Machine α'} {f : α' → Machine α} {p : Parser α'} {g : α' → Parser β}
    (hn : Mirrors n p) (hf : ∀ a, Tracks (fun _ => True) (f a) (g a) post) :
    Tracks pre (n >>= f) (p >>= g) post := by
  have hsame : Tracks pre n p fun a b _ => a = b ∧ True :=
    hn.anywhere.imp fun _ _ _ h => ⟨h, trivial⟩
  exact bindSame hsame hf

/-! ### Tokens -/

theorem holds_scanned (s : State) (ls : List Lexeme) :
    ∀ log, (s.scanned log ls).Holds (s.scanned log ls).buffer ∧
      (s.scanned log ls).remainder = settleWith log ls ∧
      (s.scanned log ls).depth = s.depth ∧ (s.scanned log ls).fatal = s.fatal := by
  induction ls with
  | nil => exact fun log => ⟨⟨rfl, fun _ => rfl⟩, rfl, rfl, rfl⟩
  | cons l ls ih =>
      intro log
      cases l with
      | token t p => exact ⟨⟨rfl, by simp [State.scanned]⟩, rfl, rfl, rfl⟩
      | illegal c p => exact ih _
      | note d => exact ih _

/-- Looking fills the buffer, and settles what is left. -/
theorem peek_run (hw : Works env lo depth s) : ∃ s', peek env.source s = .done s'.buffer s' ∧
    s'.Holds s'.buffer ∧ s'.remainder = s.remainder.settle ∧ Works env lo depth s' := by
  cases hb : s.buffer with
  | some x =>
      have hs : s.Holds (some x) := ⟨hb, by simp⟩
      refine ⟨s, by rw [peek, hb], ⟨rfl, fun h => ?_⟩, ?_, hw⟩
      · rw [hb] at h
        cases h
      · rw [hs.remainder_some]
        rfl
  | none =>
      obtain ⟨hs, hr, hdepth, hfatal⟩ := holds_scanned s s.lexemes s.log
      have hnone : s.remainder = ⟨s.lexemes, s.log⟩ := by
        rw [State.remainder, hb]
        rfl
      have hsettle : (s.scanned s.log s.lexemes).remainder = s.remainder.settle := by
        rw [hr, hnone]
        rfl
      obtain ⟨seg, -, hseg, -⟩ := reads_settle [] s.remainder
      refine ⟨_, by rw [peek, hb], hs, hsettle, hw.reads seg hdepth hfatal ?_⟩
      rw [hseg, hsettle]

/-- Whatever a look finds is in the buffer then. -/
theorem peek {f : Option (Token × Span) → Machine α} (hq : Parser.Settles q)
    (h : ∀ x, Tracks (State.Holds x) (f x) q post) : Tracks pre (Machine.peek >>= f) q post := by
  intro env lo depth s hw _
  obtain ⟨s', hrun, hs, hr, hw'⟩ := peek_run hw
  rw [bind_run, hrun, ← hq env s.remainder, ← hr]
  exact h _ env lo depth s' hw' hs

theorem bump_run {x : Token × Span} (hs : s.Holds (some x)) (source : List Char) :
    bump source s = .done x { s with buffer := none } := by
  rw [bump, hs.buffer]

/-- What is taken is in the buffer, and the parser takes it. -/
theorem take {f : Token × Span → Machine α} {g : Parser β}
    (h : Tracks (fun _ => True) (f (t, p)) g post)
    (hq : ∀ env ls log, q env ⟨.token t p :: ls, log⟩ = g env ⟨ls, log⟩) :
    Tracks (State.Holds (some (t, p))) (bump >>= f) q post := by
  intro env lo depth s hw hs
  rw [bind_run, bump_run hs, hs.remainder_some, hq]
  exact h env lo depth _ (hw.bump hs) trivial

/-- Where a token comes next, the parser does what another one does. -/
theorem before {g : Parser β} (h : Tracks (State.Holds (some (t, p))) m g post)
    (hq : ∀ env ls log, q env ⟨.token t p :: ls, log⟩ = g env ⟨.token t p :: ls, log⟩) :
    Tracks (State.Holds (some (t, p))) m q post := by
  intro env lo depth s hw hs
  rw [hs.remainder_some, hq, ← hs.remainder_some]
  exact h env lo depth s hw hs

/-- At the end of the source, the parser does what another one does. -/
theorem atEnd {g : Parser β} (h : Tracks (State.Holds none) m g post)
    (hq : ∀ env log, q env ⟨[], log⟩ = g env ⟨[], log⟩) :
    Tracks (State.Holds none) m q post := by
  intro env lo depth s hw hs
  rw [hs.remainder_none, hq, ← hs.remainder_none]
  exact h env lo depth s hw hs

theorem addError (d : Diagnostic) : Tracks pre (addError d) (Parser.report d) fun _ _ _ => True :=
  fun _ _ _ _ hw _ => .done (hw.report d) trivial

/-- What was not expected is reported by both, and the end of the source outside of bodies. -/
theorem unexpected (e : Expectation) :
    Tracks pre (unexpected e : Machine α) (Parser.unexpected e : Parser β) post := by
  refine peek (.unexpected e) fun x env lo depth s hw hs => ?_
  rw [bind_run]
  rcases x with _ | ⟨t, p⟩
  · have hrun := Parser.unexpected_run_nil (α := β) (r := ⟨[], s.log⟩) e env rfl
    rw [complain, hw.deep, hs.remainder_none, hrun, hw.inBody]
    by_cases hpos : 0 < depth
    · rw [if_pos hpos, if_pos (decide_eq_true hpos)]
      have hfailed : Agrees env lo depth post (.failed s) _ := .mismatch hw
      rw [hs.remainder_none] at hfailed
      exact hfailed
    · rw [if_neg hpos, if_neg (by rw [decide_eq_true_iff]; exact hpos)]
      have hfailed : Agrees env lo depth post (.failed _) _ :=
        .mismatch (hw.report (.unexpectedEof e (.point (Utf8.size env.source))))
      rw [(hs.report _).remainder_none] at hfailed
      exact hfailed
  · have hrun := Parser.unexpected_run_token (α := β) (r := ⟨.token t p :: s.lexemes, s.log⟩) e
      env rfl
    rw [complain, hs.remainder_some, hrun]
    have hfailed : Agrees env lo depth post (.failed _) _ :=
      .mismatch (hw.report (.unexpectedToken e t p))
    rw [(hs.report _).remainder_some] at hfailed
    exact hfailed

/-- A mark that must come next. -/
theorem expectMark (k : Punctuation) : Mirrors (expectMark k) (Parser.expectMark k) := by
  refine peek (.bind (.accept? _)) fun x => ?_
  rcases x with _ | ⟨t, p⟩
  · exact atEnd (unexpected _) fun _ _ => rfl
  · by_cases ht : t = .mark k
    · subst ht
      simp only [if_pos]
      exact take (.pure fun _ _ => rfl) fun env ls log => Parser.expectMark_run env rfl
    · simp only [if_neg ht]
      refine before (unexpected _) fun env ls log => ?_
      rw [Parser.expectMark, Parser.acceptMark?,
        Parser.bind_done (Parser.accept?_run_none env rfl (if_neg ht))]
      rfl

/-- A mark that may come next. -/
theorem bumpIfMark (k : Punctuation) : Tracks (fun _ => True) (bumpIfMark k)
    (Parser.acceptMark? k) fun taken found _ => taken = found.isSome := by
  refine peek (.accept? _) fun x => ?_
  rcases x with _ | ⟨t, p⟩
  · exact atEnd (g := Pure.pure none) (.pure fun _ _ => rfl) fun _ _ => rfl
  · by_cases ht : t = .mark k
    · simp only [if_pos ht]
      refine take (g := Pure.pure (some p)) (.pure fun _ _ => rfl) fun env ls log => ?_
      exact Parser.accept?_run_some env rfl (if_pos ht)
    · simp only [if_neg ht]
      refine before (g := Pure.pure none) (.pure fun _ _ => rfl) fun env ls log => ?_
      exact Parser.accept?_run_none env rfl (if_neg ht)

/-- A keyword that may come next. -/
theorem bumpIfKeyword (k : Keyword) : Mirrors (bumpIfKeyword k) (Parser.acceptKeyword? k) := by
  refine peek (.accept? _) fun x => ?_
  rcases x with _ | ⟨t, p⟩
  · exact atEnd (.pure fun _ _ => rfl) fun _ _ => rfl
  · cases t with
    | ident word =>
        by_cases hw : word = k.text
        · simp only [if_pos hw]
          refine take (.pure fun _ _ => rfl) fun env ls log => ?_
          exact Parser.accept?_run_some env rfl (if_pos (congrArg Token.ident hw))
        · simp only [if_neg hw]
          refine before (.pure fun _ _ => rfl) fun env ls log => ?_
          exact Parser.accept?_run_none env rfl (if_neg fun h => hw (Token.ident.inj h))
    | _ => exact before (.pure fun _ _ => rfl) fun _ _ _ => rfl

/-- A keyword that must come next. -/
theorem expectKeyword (k : Keyword) : Mirrors (expectKeyword k) (Parser.expectKeyword k) := by
  refine andThen (bumpIfKeyword k) fun found => ?_
  cases found with
  | some p => exact .pure fun _ _ => rfl
  | none => exact unexpected _

/-- The keyword that a look has found. -/
def keyword? : Option (Token × Span) → Option Keyword
  | some (.ident word, _) => Keyword.ofText? word
  | _ => none

/-- A look for a keyword is a look. -/
theorem peekKeyword {f : Option Keyword → Machine α} (hq : Parser.Settles q)
    (h : ∀ x, Tracks (State.Holds x) (f (keyword? x)) q post) :
    Tracks pre (peekKeyword >>= f) q post := by
  have hlook : Machine.peekKeyword >>= f = Machine.peek >>= fun x => f (keyword? x) := by
    rw [Machine.peekKeyword, bind_assoc]
    refine congrArg (Machine.peek >>= ·) (funext fun x => ?_)
    rcases x with _ | ⟨word | n | v | bytes | mark, p⟩ <;> exact pure_bind _ _
  rw [hlook]
  exact peek hq h

/-! ### Loops -/

section Loops

variable {Q : State → Prop}

theorem exhausted {n : Machine α} : Tracks pre n (Parser.halt .exhausted : Parser β) post :=
  fun _ _ _ _ _ _ => .exhausted

theorem collect {turn : Machine (Parser.Turn α)} {pturn : Parser (Parser.Turn α)}
    (h : Tracks (fun _ => True) turn pturn fun t u s => t = u ∧ (t = .stop → Q s))
    (budget : List Lexeme) : Tracks (fun _ => True) (Machine.collect turn budget)
      (Parser.collect pturn budget) fun as bs s => as = bs ∧ Q s := by
  induction budget with
  | nil =>
      refine bindSame h fun t => ?_
      cases t with
      | stop => exact .pure fun s hs => ⟨rfl, hs rfl⟩
      | skip => exact exhausted
      | yield a => exact exhausted
  | cons l budget ih =>
      refine bindSame h fun t => ?_
      cases t with
      | stop => exact .pure fun s hs => ⟨rfl, hs rfl⟩
      | skip => exact ih.anywhere
      | yield a => exact bindSame ih.anywhere fun as => .pure fun s hs => ⟨rfl, hs⟩

/-- Loops whose turns track each other.  The state that they are left in is that of a last turn. -/
theorem manyLeaving {turn : Machine (Parser.Turn α)} {pturn : Parser (Parser.Turn α)}
    (h : Tracks (fun _ => True) turn pturn fun t u s => t = u ∧ (t = .stop → Q s)) :
    Tracks (fun _ => True) (Machine.many turn) (Parser.many pturn)
      fun as bs s => as = bs ∧ Q s :=
  fun env lo depth s hw hs => collect h s.remainder.lexemes env lo depth s hw hs

theorem many {turn : Machine (Parser.Turn α)} {pturn : Parser (Parser.Turn α)}
    (h : Mirrors turn pturn) : Mirrors (Machine.many turn) (Parser.many pturn) :=
  (manyLeaving (Q := fun _ => True) (h.imp fun _ _ _ h => ⟨h, fun _ => trivial⟩)).imp
    fun _ _ _ h => h.1

/-- What a turn that changes a value leads to: values in a relation again, or out of the loop. -/
def Turned (R : α → β → Prop) (Q : State → Prop) : Option α → Option β → State → Prop
  | some a, some b, _ => R a b
  | none, none, s => Q s
  | _, _, _ => False

theorem evolve {R : α → β → Prop} {turn : α → Machine (Option α)}
    {pturn : β → Parser (Option β)}
    (h : ∀ a b, R a b → Tracks (fun _ => True) (turn a) (pturn b) (Turned R Q))
    (budget : List Lexeme) : ∀ a b, R a b → Tracks (fun _ => True)
      (Machine.evolve turn budget a) (Parser.evolve pturn budget b) fun a b s => R a b ∧ Q s := by
  induction budget with
  | nil =>
      intro a b hab
      refine bind (h a b hab) fun a' b' => ?_
      cases b' with
      | some b' => exact exhausted
      | none =>
          cases a' with
          | none => exact .pure fun s hs => ⟨hab, hs⟩
          | some a' => exact fun _ _ _ _ _ hs => hs.elim
  | cons l budget ih =>
      intro a b hab
      refine bind (h a b hab) fun a' b' => ?_
      rcases a' with _ | a' <;> rcases b' with _ | b'
      · exact .pure fun s hs => ⟨hab, hs⟩
      · exact fun _ _ _ _ _ hs => hs.elim
      · exact fun _ _ _ _ _ hs => hs.elim
      · exact fun env lo depth s hw hs => ih a' b' hs env lo depth s hw trivial

theorem iterate {R : α → β → Prop} {turn : α → Machine (Option α)}
    {pturn : β → Parser (Option β)}
    (h : ∀ a b, R a b → Tracks (fun _ => True) (turn a) (pturn b) (Turned R Q)) {a : α} {b : β}
    (hab : R a b) : Tracks (fun _ => True) (Machine.iterate turn a) (Parser.iterate pturn b)
      fun a b s => R a b ∧ Q s :=
  fun env lo depth s hw hs => evolve h s.remainder.lexemes a b hab env lo depth s hw hs

theorem iterateSame {turn : β → Machine (Option β)} {pturn : β → Parser (Option β)}
    (h : ∀ b, Mirrors (turn b) (pturn b)) (b : β) :
    Mirrors (Machine.iterate turn b) (Parser.iterate pturn b) := by
  have hturned : ∀ a b : β, a = b →
      Tracks (fun _ => True) (turn a) (pturn b) (Turned Eq fun _ => True) := by
    rintro a _ rfl
    refine (h a).imp ?_
    rintro (_ | a) _ s rfl
    · trivial
    · rfl
  exact (iterate hturned rfl).imp fun _ _ _ h => h.1

end Loops

/-! ### Recovery -/

theorem attempt {n : Machine α} {p : Parser α} (h : Mirrors n p) :
    Mirrors (Machine.attempt n) (Parser.attempt p) := by
  intro env lo depth s hw _
  have ha := h env lo depth s hw trivial
  rw [Machine.attempt, Parser.attempt]
  generalize n env.source s = result at ha ⊢
  generalize p env s.remainder = o at ha ⊢
  cases ha with
  | done works holds => exact .done works (congrArg some holds)
  | mismatch works =>
      dsimp only
      rw [works.running]
      exact .done works rfl
  | unclosed fatal =>
      dsimp only
      rw [fatal]
      exact .unclosed fatal
  | exhausted => exact .exhausted

/-- A turn of the loop that skips to the end of a statement. -/
theorem skipTurn (n : Nat) : Mirrors (Machine.skipTurn n) (Parser.skipTurn n) := by
  have hplain : ∀ {t p},
      (∀ env ls log, Parser.skipTurn n env ⟨.token t p :: ls, log⟩ = .done (some n) ⟨ls, log⟩) →
      Tracks (State.Holds (some (t, p))) (do let _ ← bump; Pure.pure (some n))
        (Parser.skipTurn n) fun a b _ => a = b :=
    fun h => take (g := Pure.pure (some n)) (.pure fun _ _ => rfl) h
  refine peek (.bind .peek) fun x => ?_
  rcases x with _ | ⟨t, p⟩
  · exact atEnd (.pure fun _ _ => rfl) fun _ _ => rfl
  · cases t with
    | mark mark =>
        cases mark with
        | semicolon => exact take (.pure fun _ _ => rfl) fun _ _ _ => by cases n <;> rfl
        | leftBrace => exact take (.pure fun _ _ => rfl) fun _ _ _ => rfl
        | rightBrace =>
            cases n with
            | zero => exact before (.pure fun _ _ => rfl) fun _ _ _ => rfl
            | succ n =>
                -- Where the depth is not zero, one less is what the parser goes on with.
                refine take (g := Pure.pure (if n = 0 then none else some n)) ?_ fun _ _ _ => ?_
                · exact .pure fun _ _ => rfl
                · cases n <;> rfl
        | _ => exact hplain fun _ _ _ => by cases n <;> rfl
    | _ => exact hplain fun _ _ _ => by cases n <;> rfl

theorem recover : Mirrors Machine.recover Parser.recover := by
  rw [Parser.recover_eq]
  exact andThen (iterateSame skipTurn 0) fun _ => .pure fun _ _ => rfl

/-! ### Bodies -/

theorem giveUp : Tracks pre (giveUp : Machine α) (Parser.halt .unclosed : Parser β) post :=
  fun _ _ _ _ _ _ => .unclosed rfl

theorem memberTurn {member : Machine α} {pmember : Parser α} (h : Mirrors member pmember) :
    Tracks pre (Machine.memberTurn member) (Parser.memberTurn pmember)
      fun t u _ => t = u ∧ t ≠ .stop := by
  refine andThen (attempt h) fun m? => ?_
  cases m? with
  | some m => exact .pure fun _ _ => ⟨rfl, by simp⟩
  | none => exact andThen recover fun _ => .pure fun _ _ => ⟨rfl, by simp⟩

/-- A turn of the loop over the members of a body stops before a closing brace only. -/
theorem bodyTurn (kind : BodyKind) (opening : Span) {member : Machine α} {pmember : Parser α}
    (h : Mirrors member pmember) : Tracks (fun _ => True) (Machine.bodyTurn kind opening member)
      (Parser.bodyTurn kind opening pmember) fun t u s =>
        t = u ∧ (t = .stop → ∃ p, s.Holds (some (.mark .rightBrace, p))) := by
  have hmember : ∀ x, Tracks (State.Holds x) (Machine.memberTurn member)
      (Parser.memberTurn pmember) fun t u s =>
        t = u ∧ (t = .stop → ∃ p, s.Holds (some (.mark .rightBrace, p))) :=
    fun x => (memberTurn h).imp fun _ _ _ ht => ⟨ht.1, fun hstop => absurd hstop ht.2⟩
  refine peek (.bind .peek) fun x => ?_
  rcases x with _ | ⟨t, p⟩
  · exact atEnd (bind (addError _) fun _ _ => giveUp) fun _ _ => rfl
  · cases t with
    | mark mark =>
        cases mark with
        | rightBrace =>
            exact before (.pure fun _ hs => ⟨rfl, fun _ => ⟨p, hs⟩⟩) fun _ _ _ => rfl
        | semicolon => exact take (.pure fun _ _ => ⟨rfl, by simp⟩) fun _ _ _ => rfl
        | _ => exact before (hmember _) fun _ _ _ => rfl
    | _ => exact before (hmember _) fun _ _ _ => rfl

/-- Behind the members the closing brace is taken, and the count of bodies is as it was. -/
theorem closing {γ : Type} (ms : γ) (hin : env.inBody = decide (0 < depth))
    (hw : Works { env with inBody := true } lo (depth + 1) s)
    (hs : s.Holds (some (.mark .rightBrace, p))) :
    Agrees env lo depth (fun a b _ => a = b)
      ((do
        let taken ← bump
        rise
        Pure.pure (ms, taken.2)) env.source s)
      ((do
        let closing ← Parser.expectMark .rightBrace
        Pure.pure (ms, closing)) env s.remainder) := by
  have hrise : rise env.source { s with buffer := none } =
      .done () { s with buffer := none, depth := depth } := by
    rw [rise]
    dsimp only
    rw [hw.deep]
  rw [bind_run, bump_run hs, hs.remainder_some, Parser.bind_run, Parser.expectMark_run env rfl]
  dsimp only
  rw [bind_run, hrise]
  have htaken := hw.bump hs
  exact .done ⟨rfl, hin, htaken.running, htaken.ordered, htaken.fits⟩ rfl

/--
A body.  It is one level deeper up to its closing brace.  An error in a member is caught by the
loop, so nothing that fails within the body leaves the count of open bodies as it is there.
-/
theorem body (kind : BodyKind) {n : Nat} {member : Machine α} {pmember : Parser α}
    (ho : Parser.Orderly n true pmember) (h : Mirrors member pmember) :
    Mirrors (Machine.body kind member) (Parser.body kind pmember) := by
  rw [Parser.body_eq]
  refine andThen (expectMark _) fun opening env lo depth s hw _ => ?_
  have hwithin : Works { env with inBody := true } lo (depth + 1)
      { s with depth := s.depth + 1 } :=
    ⟨congrArg (· + 1) hw.deep, rfl, hw.running, hw.ordered, hw.fits⟩
  have hloop : Agrees { env with inBody := true } lo (depth + 1)
      (fun as bs s => as = bs ∧ ∃ p, s.Holds (some (.mark .rightBrace, p)))
      (Machine.many (Machine.bodyTurn kind opening member) env.source
        { s with depth := s.depth + 1 })
      (Parser.many (Parser.bodyTurn kind opening pmember) { env with inBody := true }
        s.remainder) :=
    manyLeaving (bodyTurn kind opening h) _ _ _ _ hwithin trivial
  -- A body catches what its members cannot read, so its loop never ends in a mismatch.
  have hcaught : Parser.InBody n opening s.remainder
      (Parser.many (Parser.bodyTurn kind opening pmember) { env with inBody := true }
        s.remainder) :=
    Parser.collect_inBody kind opening ho rfl _ _ (Nat.le_refl _)
  rw [bind_run, Parser.bind_run]
  dsimp only [deepen, Parser.inside]
  rw [bind_run]
  generalize Parser.many (Parser.bodyTurn kind opening pmember) { env with inBody := true }
    s.remainder = o at hcaught hloop ⊢
  generalize Machine.many (Machine.bodyTurn kind opening member) env.source
    { s with depth := s.depth + 1 } = result at hloop ⊢
  cases hloop with
  | done works holds =>
      obtain ⟨rfl, p, hp⟩ := holds
      exact closing _ hw.inBody works hp
  | mismatch works => cases hcaught
  | unclosed fatal => exact .unclosed fatal
  | exhausted => exact .exhausted

end Tracks

end Machine

end ProtoSchema
