/-
Parsing the same tokens at other places.

A parser looks at tokens and never at where they stand.  So it does with moved lexemes what it
does with the lexemes as they are, and what it yields, reports and leaves is moved along.
`Follows` says this of two parsers; they are two because what is parsed later is built with
places from before.

There are two exceptions.  The end of the source is reported where the source ends, and the
text of a block is read from the source by its place.  `Surroundings.Moved` asks of two sources
that their ends and the texts of their blocks go along with a relocation.
-/
import ProtoSchema.Grammar.File
import ProtoSchema.Proofs.Parsing.Orderly
import ProtoSchema.Proofs.Relocation.Tree

namespace ProtoSchema

/-! ### Lexemes and outcomes -/

def Lexeme.moved (m : Relocation) : Lexeme → Lexeme
  | token t s => .token t (s.moved m)
  | illegal c s => .illegal c (s.moved m)
  | note d => .note (d.moved m)

def Remainder.moved (m : Relocation) (r : Remainder) : Remainder :=
  ⟨r.lexemes.map (Lexeme.moved m), r.log.map (Diagnostic.moved m)⟩

theorem Remainder.settle_moved (m : Relocation) (r : Remainder) :
    (r.moved m).settle = r.settle.moved m := by
  obtain ⟨ls, log⟩ := r
  show settleWith (log.map (Diagnostic.moved m)) (ls.map (Lexeme.moved m)) =
    (settleWith log ls).moved m
  induction ls generalizing log with
  | nil => rfl
  | cons l ls ih =>
      cases l with
      | token t s => rfl
      | illegal c s => exact ih (.invalidToken c s :: log)
      | note d => exact ih (d :: log)

/-- An outcome with what was yielded as it looks elsewhere, and the rest moved. -/
def Outcome.moved {α β : Type} (m : Relocation) (look : α → β) : Outcome α → Outcome β
  | .done a r => .done (look a) (r.moved m)
  | .halted h r => .halted h (r.moved m)

def Parser.Turn.moved {α β : Type} (look : α → β) : Turn α → Turn β
  | .stop => .stop
  | .skip => .skip
  | .yield a => .yield (look a)

/-- The text of a block between two places. -/
def blockText (source : List Char) (s : Span) : String :=
  String.ofList (Text.trim (Text.slice source s))

/-- Surroundings of a parser whose source ends, and has its blocks, where a relocation says. -/
structure Surroundings.Moved (m : Relocation) (env env' : Surroundings) : Prop where
  inBody : env'.inBody = env.inBody
  stop : Span.point (Utf8.size env'.source) = (Span.point (Utf8.size env.source)).moved m
  block : ∀ a b, blockText env'.source ⟨m.stop a, m.start b⟩ =
    m.block (blockText env.source ⟨a, b⟩)

namespace Parser

open Remainder

/-- What one parser yields, another yields of moved lexemes as it looks elsewhere. -/
def Follows {α β : Type} (m : Relocation) (look : α → β) (p : Parser α) (q : Parser β) : Prop :=
  ∀ env env', env.Moved m env' → ∀ r, q env' (r.moved m) = (p env r).moved m look

namespace Follows

variable {α β γ δ : Type} {m : Relocation} {l : α → β} {k : γ → δ}

/-! ### Sequences -/

theorem pure (a : α) {b : β} (h : l a = b) :
    Follows m l (Pure.pure a) (Pure.pure b) := by
  subst h
  exact fun _ _ _ _ => rfl

theorem bind {p : Parser α} {q : Parser β} {f : α → Parser γ} {g : β → Parser δ}
    (hp : Follows m l p q) (hf : ∀ a, Follows m k (f a) (g (l a))) :
    Follows m k (p >>= f) (q >>= g) := by
  intro env env' henv r
  rw [bind_run, bind_run, hp env env' henv r]
  cases p env r with
  | done a r' => exact hf a env env' henv r'
  | halted h r' => rfl

theorem map {p : Parser α} {q : Parser β} {f : α → γ} {g : β → δ} (hp : Follows m l p q)
    (hf : ∀ a, k (f a) = g (l a)) : Follows m k (f <$> p) (g <$> q) := by
  rw [← bind_pure_comp, ← bind_pure_comp]
  exact bind hp fun a => pure (f a) (hf a)

theorem halt (h : Halt) : Follows m l (Parser.halt h) (Parser.halt h) := fun _ _ _ _ => rfl

theorem report (d : Diagnostic) :
    Follows m id (Parser.report d) (Parser.report (d.moved m)) := fun _ _ _ _ => rfl

theorem reportAll (ds : List Diagnostic) :
    Follows m id (Parser.reportAll ds) (Parser.reportAll (ds.map (Diagnostic.moved m))) := by
  induction ds with
  | nil => exact pure () rfl
  | cons d ds ih => exact bind (report d) fun _ => ih

/-! ### Single tokens -/

theorem peek : Follows m id Parser.peek Parser.peek := by
  intro env env' henv r
  have hnext : (r.moved m).next? = r.next? := by
    unfold next?
    rw [settle_moved]
    rcases settle_lexemes r with h | ⟨t, s, ls, h⟩
    · rw [Remainder.moved, h]
      rfl
    · rw [Remainder.moved, h]
      rfl
  rw [peek_run, peek_run, settle_moved, hnext]
  rfl

theorem peekKeyword : Follows m id Parser.peekKeyword Parser.peekKeyword := by
  refine bind peek fun t? => ?_
  rcases t? with _ | ⟨_ | _ | _ | _ | _⟩ <;> exact pure _ rfl

theorem accept? {want : Token → Span → Option α} {want' : Token → Span → Option β}
    (hw : ∀ t s, want' t (s.moved m) = (want t s).map l) :
    Follows m (Option.map l) (Parser.accept? want) (Parser.accept? want') := by
  intro env env' henv r
  have hset : (r.moved m).settle.lexemes = r.settle.lexemes.map (Lexeme.moved m) := by
    rw [settle_moved, Remainder.moved]
  rcases settle_lexemes r with h | ⟨t, s, ls, h⟩
  · rw [h] at hset
    rw [accept?_run_nil want env h, accept?_run_nil want' env' hset, settle_moved]
    rfl
  · rw [h] at hset
    have hword := hw t s
    cases hfound : want t s with
    | none =>
        rw [hfound] at hword
        rw [accept?_run_none env h hfound, accept?_run_none env' hset hword, settle_moved]
        rfl
    | some a =>
        rw [hfound] at hword
        rw [accept?_run_some env h hfound, accept?_run_some env' hset hword, settle_moved]
        rfl

theorem unexpected (e : Expectation) :
    Follows m l (Parser.unexpected e) (Parser.unexpected e) := by
  intro env env' henv r
  have hset : (r.moved m).settle.lexemes = r.settle.lexemes.map (Lexeme.moved m) := by
    rw [settle_moved, Remainder.moved]
  rcases settle_lexemes r with h | ⟨t, s, ls, h⟩
  · rw [h] at hset
    rw [unexpected_run_nil e env h, unexpected_run_nil e env' hset, henv.inBody, henv.stop,
      settle_moved]
    split <;> rfl
  · rw [h] at hset
    rw [unexpected_run_token e env h, unexpected_run_token e env' hset, hset, h, settle_moved]
    rfl

theorem require {want : Token → Span → Option α} {want' : Token → Span → Option β}
    (e : Expectation) (hw : ∀ t s, want' t (s.moved m) = (want t s).map l) :
    Follows m l (Parser.require e want) (Parser.require e want') := by
  refine bind (accept? hw) fun found => ?_
  cases found with
  | some a => exact pure a rfl
  | none => exact unexpected e

theorem acceptMark? (p : Punctuation) :
    Follows m (Option.map (Span.moved m)) (Parser.acceptMark? p) (Parser.acceptMark? p) := by
  refine accept? fun t s => ?_
  by_cases ht : t = .mark p
  · rw [if_pos ht, if_pos ht, Option.map_some]
  · rw [if_neg ht, if_neg ht, Option.map_none]

theorem expectMark (p : Punctuation) :
    Follows m (Span.moved m) (Parser.expectMark p) (Parser.expectMark p) := by
  refine bind (acceptMark? p) fun found => ?_
  cases found with
  | some s => exact pure s rfl
  | none => exact unexpected _

theorem acceptKeyword? (k : Keyword) :
    Follows m (Option.map (Span.moved m)) (Parser.acceptKeyword? k)
      (Parser.acceptKeyword? k) := by
  refine accept? fun t s => ?_
  by_cases ht : t = .ident k.text
  · rw [if_pos ht, if_pos ht, Option.map_some]
  · rw [if_neg ht, if_neg ht, Option.map_none]

theorem expectKeyword (k : Keyword) :
    Follows m (Span.moved m) (Parser.expectKeyword k) (Parser.expectKeyword k) := by
  refine bind (acceptKeyword? k) fun found => ?_
  cases found with
  | some s => exact pure s rfl
  | none => exact unexpected _

/-! ### Loops -/

/-- A loop counts its turns off against the lexemes that are left, wherever they stand. -/
theorem collect {turn : Parser (Turn α)} {turn' : Parser (Turn β)}
    (h : Follows m (Turn.moved l) turn turn') (budget : List Lexeme) :
    Follows m (List.map l) (Parser.collect turn budget)
      (Parser.collect turn' (budget.map (Lexeme.moved m))) := by
  induction budget with
  | nil =>
      refine bind h fun t => ?_
      cases t with
      | stop => exact pure [] rfl
      | skip => exact halt _
      | yield a => exact halt _
  | cons _ budget ih =>
      refine bind h fun t => ?_
      cases t with
      | stop => exact pure [] rfl
      | skip => exact ih
      | yield a => exact bind ih fun as => pure (a :: as) rfl

theorem many {turn : Parser (Turn α)} {turn' : Parser (Turn β)}
    (h : Follows m (Turn.moved l) turn turn') :
    Follows m (List.map l) (Parser.many turn) (Parser.many turn') :=
  fun env env' henv r => collect h r.lexemes env env' henv r

theorem evolve {turn : α → Parser (Option α)} {turn' : β → Parser (Option β)}
    (h : ∀ a, Follows m (Option.map l) (turn a) (turn' (l a))) (budget : List Lexeme)
    (a : α) :
    Follows m l (Parser.evolve turn budget a)
      (Parser.evolve turn' (budget.map (Lexeme.moved m)) (l a)) := by
  induction budget generalizing a with
  | nil =>
      refine bind (h a) fun a? => ?_
      cases a? with
      | none => exact pure a rfl
      | some a' => exact halt _
  | cons _ budget ih =>
      refine bind (h a) fun a? => ?_
      cases a? with
      | none => exact pure a rfl
      | some a' => exact ih a'

theorem iterate {turn : α → Parser (Option α)} {turn' : β → Parser (Option β)}
    (h : ∀ a, Follows m (Option.map l) (turn a) (turn' (l a))) (a : α) :
    Follows m l (Parser.iterate turn a) (Parser.iterate turn' (l a)) :=
  fun env env' henv r => evolve h r.lexemes a env env' henv r

/-! ### Recovery and bodies -/

theorem attempt {p : Parser α} {q : Parser β} (h : Follows m l p q) :
    Follows m (Option.map l) (Parser.attempt p) (Parser.attempt q) := by
  intro env env' henv r
  unfold Parser.attempt
  rw [h env env' henv r]
  cases p env r with
  | done a r' => rfl
  | halted reason r' => cases reason <;> rfl

theorem skipStatement_moved (m : Relocation) (depth : Nat) (log : List Diagnostic)
    (ls : List Lexeme) :
    skipStatement depth (log.map (Diagnostic.moved m)) (ls.map (Lexeme.moved m)) =
      (skipStatement depth log ls).moved m := by
  induction ls generalizing depth log with
  | nil => simp only [List.map_nil, skipStatement, Remainder.moved]
  | cons lexeme ls ih =>
      cases lexeme with
      | note d =>
          simp only [List.map_cons, Lexeme.moved, skipStatement]
          exact ih depth (d :: log)
      | illegal c s =>
          simp only [List.map_cons, Lexeme.moved, skipStatement]
          exact ih depth (.invalidToken c s :: log)
      | token t s =>
          simp only [List.map_cons, Lexeme.moved]
          by_cases hl : t = .mark .leftBrace
          · simp only [skipStatement, if_pos hl, ih]
          · cases depth with
            | zero =>
                simp only [skipStatement, if_neg hl, ih]
                split
                · rfl
                · split <;> rfl
            | succ depth =>
                simp only [skipStatement, if_neg hl, ih]
                split
                · split <;> rfl
                · rfl

theorem recover : Follows m id Parser.recover Parser.recover :=
  fun _ _ _ r => congrArg (Outcome.done ()) (skipStatement_moved m 0 r.log r.lexemes)

theorem inside {p : Parser α} {q : Parser β} (h : Follows m l p q) :
    Follows m l (Parser.inside p) (Parser.inside q) :=
  fun env env' henv r =>
    h { env with inBody := true } { env' with inBody := true } ⟨rfl, henv.stop, henv.block⟩ r

/-- A turn of a body that starts a member. -/
theorem memberTurn {p : Parser α} {q : Parser β} (h : Follows m l p q) :
    Follows m (Turn.moved l)
      (do match ← Parser.attempt p with
          | some a => Pure.pure (.yield a)
          | none => do
            Parser.recover
            Pure.pure .skip)
      (do match ← Parser.attempt q with
          | some b => Pure.pure (.yield b)
          | none => do
            Parser.recover
            Pure.pure .skip) := by
  refine bind (attempt h) fun a? => ?_
  cases a? with
  | some a => exact pure _ rfl
  | none => exact bind recover fun _ => pure _ rfl

theorem body (kind : BodyKind) {p : Parser α} {q : Parser β} (h : Follows m l p q) :
    Follows m (fun b => (b.1.map l, b.2.moved m)) (Parser.body kind p)
      (Parser.body kind q) := by
  refine bind (expectMark _) fun opening => ?_
  refine bind (inside (many (bind peek fun t? => ?_))) fun members =>
    bind (expectMark _) fun closing => pure _ rfl
  cases t? with
  | none => exact bind (report (.unterminatedBody kind opening)) fun _ => halt _
  | some t =>
      cases t with
      | mark mark =>
          cases mark with
          | rightBrace => exact pure _ rfl
          | semicolon => exact bind (acceptMark? _) fun _ => pure _ rfl
          | _ => exact memberTurn h
      | _ => exact memberTurn h

end Follows

end Parser

end ProtoSchema
