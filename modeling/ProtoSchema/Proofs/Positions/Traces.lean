/-
How parsers keep track of places.

A parser goes through a source from left to right.  Wherever it stands, what is left lies
behind that place and what was reported lies in the source; `Remainder.Placed` says so.  It
also says that nothing but tokens gets lost as long as nothing is reported.
`Traces source lo Q p` says that the parser `p`, when it starts at the offset `lo`, keeps it
that way, and that a value it gives satisfies `Q hi`, where `hi` is the offset up to which it
has read.  Productions then only have to say how their parts stand between these offsets: a
part that is read from `lo` to `mid` lies before the part that is read from `mid` to `hi`.

A parser that halts has read something too, but all that matters then is that what is left
still lies behind `lo`.
-/
import ProtoSchema.Proofs.Parsing.Statements
import ProtoSchema.Proofs.Positions.Nodes
import ProtoSchema.Proofs.Positions.Notes

namespace ProtoSchema

open Remainder

/-- A token of the source that stands behind an offset. -/
structure Found (source : List Char) (lo : Nat) (t : Token) (s : Span) : Prop where
  mem : .token t s ∈ scan source
  after : lo ≤ s.start

namespace Found

variable {source : List Char} {lo : Nat} {t : Token} {s : Span}

theorem mem_spans (h : Found source lo t s) : s ∈ spans (scan source) :=
  ProtoSchema.mem_spans.mpr ⟨_, h.mem, rfl⟩

theorem fits (h : Found source lo t s) : s.Fits source := fits_of_mem_scan h.mem_spans

theorem within (h : Found source lo t s) : s.Within source ⟨lo, s.stop⟩ :=
  ⟨h.fits, h.after, Nat.le_refl _⟩

theorem le_stop (h : Found source lo t s) : lo ≤ s.stop := h.within.start_le_stop

end Found

/-- What is left lies behind an offset of the source, and what was reported lies in it. -/
structure Remainder.Placed (source : List Char) (lo : Nat) (r : Remainder) : Prop where
  ordered : InOrder lo (spans r.lexemes)
  lexemes : ∀ l ∈ r.lexemes, l ∈ scan source
  log : ∀ d ∈ r.log, d.Fits source
  /-- If there was nothing to report, only tokens are gone. -/
  gone : r.log = [] → ∀ l ∈ scan source, l ∉ r.lexemes → ∃ t s, l = .token t s

namespace Remainder.Placed

variable {source : List Char} {lo hi : Nat} {r : Remainder} {ls : List Lexeme}
  {log : List Diagnostic}

theorem start (source : List Char) : Placed source 0 ⟨scan source, []⟩ :=
  ⟨inOrder_scan source, fun _ h => h, fun _ h => (List.not_mem_nil h).elim,
    fun _ _ hl hn => absurd hl hn⟩

theorem mono (h : lo ≤ hi) (hr : Placed source hi r) : Placed source lo r :=
  ⟨hr.ordered.mono h, hr.lexemes, hr.log, hr.gone⟩

theorem report {d : Diagnostic} (hr : Placed source lo ⟨ls, log⟩) (hd : d.Fits source) :
    Placed source lo ⟨ls, d :: log⟩ :=
  ⟨hr.ordered, hr.lexemes, List.forall_mem_cons.mpr ⟨hd, hr.log⟩, nofun⟩

theorem note {d : Diagnostic} (hr : Placed source lo ⟨.note d :: ls, log⟩) :
    Placed source lo ⟨ls, d :: log⟩ := by
  have hmem := List.forall_mem_cons.mp hr.lexemes
  refine ⟨hr.ordered, hmem.2, List.forall_mem_cons.mpr ⟨?_, hr.log⟩, nofun⟩
  exact fits_of_note_mem_scan hmem.1

theorem token {t : Token} {s : Span} (hr : Placed source lo ⟨.token t s :: ls, log⟩) :
    Found source lo t s ∧ Placed source s.stop ⟨ls, log⟩ := by
  have hmem := List.forall_mem_cons.mp hr.lexemes
  have ho : InOrder lo (s :: spans ls) := hr.ordered
  refine ⟨⟨hmem.1, ho.of_cons.1⟩, ho.of_cons.2.2, hmem.2, hr.log, fun hlog l hl hn => ?_⟩
  by_cases heq : l = .token t s
  · exact ⟨t, s, heq⟩
  · refine hr.gone hlog l hl fun hmem => ?_
    rcases List.mem_cons.mp hmem with h | h
    · exact heq h
    · exact hn h

theorem dropToken {t : Token} {s : Span} (hr : Placed source lo ⟨.token t s :: ls, log⟩) :
    Placed source lo ⟨ls, log⟩ := hr.token.2.mono hr.token.1.le_stop

theorem illegal {c : Char} {s : Span} (hr : Placed source lo ⟨.illegal c s :: ls, log⟩) :
    Placed source lo ⟨ls, .invalidToken c s :: log⟩ := by
  have hmem := List.forall_mem_cons.mp hr.lexemes
  have ho : InOrder lo (s :: spans ls) := hr.ordered
  have hfit : s.Fits source := fits_of_mem_scan (mem_spans.mpr ⟨_, hmem.1, rfl⟩)
  refine ⟨ho.of_cons.2.2.mono (Nat.le_trans ho.of_cons.1 hfit.ordered), hmem.2,
    List.forall_mem_cons.mpr ⟨.one rfl hfit, hr.log⟩, nofun⟩

theorem settleWith {ls : List Lexeme} : ∀ {log : List Diagnostic},
    Placed source lo ⟨ls, log⟩ → Placed source lo (settleWith log ls) := by
  induction ls with
  | nil => exact fun hr => hr
  | cons l ls ih =>
      intro log hr
      cases l with
      | token t s => exact hr
      | illegal c s => exact ih hr.illegal
      | note d => exact ih hr.note

theorem settle (hr : Placed source lo r) : Placed source lo r.settle := settleWith hr

/-- Dropping what is left of a statement loses no place. -/
theorem skipStatement {ls : List Lexeme} : ∀ {depth : Nat} {log : List Diagnostic},
    Placed source lo ⟨ls, log⟩ → Placed source lo (Parser.skipStatement depth log ls) := by
  induction ls with
  | nil => exact fun hr => hr
  | cons l ls ih =>
      intro depth log hr
      cases l with
      | note d => exact ih hr.note
      | illegal c s => exact ih hr.illegal
      | token t s =>
          have hrest := hr.dropToken
          unfold Parser.skipStatement
          split
          · exact ih hrest
          · cases depth with
            | zero =>
                dsimp only
                split
                · exact hrest
                · split
                  · exact hr
                  · exact ih hrest
            | succ depth =>
                dsimp only
                split
                · split
                  · exact hrest
                  · exact ih hrest
                · exact ih hrest

/-- The brace that closes a block stands before what is left then. -/
theorem skipBlock {ls : List Lexeme} : ∀ (depth : Nat) {log : List Diagnostic},
    Placed source lo ⟨ls, log⟩ →
      match Parser.skipBlock depth log ls with
      | (some s, r) => s.Within source ⟨lo, s.stop⟩ ∧ Placed source s.stop r
      | (none, r) => Placed source lo r := by
  induction ls with
  | nil => exact fun _ _ hr => hr
  | cons l ls ih =>
      intro depth log hr
      cases l with
      | note d => exact ih depth hr.note
      | illegal c s => exact ih depth hr.illegal
      | token t s =>
          have hrest := hr.dropToken
          by_cases hlb : t = .mark .leftBrace
          · subst hlb
            exact ih (depth + 1) hrest
          by_cases hrb : t = .mark .rightBrace
          · subst hrb
            cases depth with
            | zero => exact ⟨hr.token.1.within, hr.token.2⟩
            | succ depth => exact ih depth hrest
          rw [Parser.skipBlock_plain hlb hrb]
          exact ih depth hrest

end Remainder.Placed

/-- An outcome whose value satisfies `Q hi` if the parser has read up to the offset `hi`. -/
def Outcome.Traced {α : Type} (source : List Char) (lo : Nat) (Q : Nat → α → Prop) :
    Outcome α → Prop
  | .done a r => ∃ hi, lo ≤ hi ∧ Q hi a ∧ r.Placed source hi
  | .halted _ r => r.Placed source lo

namespace Parser

variable {α β : Type} {source : List Char} {lo hi : Nat} {Q : Nat → α → Prop}
  {R : Nat → β → Prop}

/-- A parser that starts at `lo`, and whose value satisfies `Q hi` if it reads up to `hi`. -/
def Traces (source : List Char) (lo : Nat) (Q : Nat → α → Prop) (p : Parser α) : Prop :=
  ∀ inBody r, r.Placed source lo → (p ⟨source, inBody⟩ r).Traced source lo Q

/-- A parser of nodes, each of which stands where it is read. -/
def Locates [Node α] (source : List Char) (p : Parser α) : Prop :=
  ∀ lo, Traces source lo (fun hi a => Lies source ⟨lo, hi⟩ a) p

namespace Traces

/-! ### Sequences -/

theorem pure {a : α} (ha : Q lo a) : Traces source lo Q (Pure.pure a) :=
  fun _ _ hr => ⟨lo, Nat.le_refl _, ha, hr⟩

theorem bind {p : Parser α} {f : α → Parser β} (hp : Traces source lo Q p)
    (hf : ∀ a mid, lo ≤ mid → Q mid a → Traces source mid R (f a)) :
    Traces source lo R (p >>= f) := by
  intro inBody r hr
  have h := hp inBody r hr
  rw [bind_run]
  cases ho : p ⟨source, inBody⟩ r with
  | halted reason r₁ =>
      rw [ho] at h
      exact h
  | done a r₁ =>
      rw [ho] at h
      obtain ⟨mid, hle, ha, hr₁⟩ := h
      have hrest := hf a mid hle ha inBody r₁ hr₁
      dsimp only
      cases ho₂ : f a ⟨source, inBody⟩ r₁ with
      | halted reason r₂ =>
          rw [ho₂] at hrest
          exact hrest.mono hle
      | done b r₂ =>
          rw [ho₂] at hrest
          obtain ⟨hi, hle', hb, hr₂⟩ := hrest
          exact ⟨hi, Nat.le_trans hle hle', hb, hr₂⟩

theorem mono {p : Parser α} {Q' : Nat → α → Prop} (hp : Traces source lo Q p)
    (h : ∀ hi a, lo ≤ hi → Q hi a → Q' hi a) : Traces source lo Q' p := by
  rw [← bind_pure p]
  exact bind hp fun a hi hle ha => pure (h hi a hle ha)

/-- What holds of the value wherever the parser stops may be added. -/
theorem and {p : Parser α} {A : α → Prop} (hp : Traces source lo Q p)
    (hA : Traces source lo (fun _ a => A a) p) :
    Traces source lo (fun hi a => Q hi a ∧ A a) p := by
  intro inBody r hr
  have h := hp inBody r hr
  have h' := hA inBody r hr
  cases ho : p ⟨source, inBody⟩ r with
  | halted reason r₁ =>
      rw [ho] at h
      exact h
  | done a r₁ =>
      rw [ho] at h h'
      obtain ⟨hi, hle, ha, hr₁⟩ := h
      obtain ⟨-, -, hA, -⟩ := h'
      exact ⟨hi, hle, ⟨ha, hA⟩, hr₁⟩

theorem map {p : Parser α} {f : α → β} (hp : Traces source lo (fun hi a => R hi (f a)) p) :
    Traces source lo R (f <$> p) := by
  rw [← bind_pure_comp]
  exact bind hp fun a hi _ ha => pure ha

/-! ### Single tokens -/

/-- A look ahead leaves the parser where it is. -/
theorem peek {f : Option Token → Parser β} (hf : ∀ t?, Traces source lo R (f t?)) :
    Traces source lo R (Parser.peek >>= f) := by
  intro inBody r hr
  rw [bind_done (peek_run _ r)]
  exact hf _ inBody _ hr.settle

theorem peekKeyword {f : Option Keyword → Parser β} (hf : ∀ k?, Traces source lo R (f k?)) :
    Traces source lo R (Parser.peekKeyword >>= f) := by
  intro inBody r hr
  rw [bind_done (peekKeyword_run _ r)]
  exact hf _ inBody _ hr.settle

theorem report {d : Diagnostic} {f : Unit → Parser β} (hd : d.Fits source)
    (hf : Traces source lo R (f ())) : Traces source lo R (Parser.report d >>= f) :=
  fun inBody _ hr => hf inBody _ (hr.report hd)

theorem unexpected (e : Expectation) : Traces source lo Q (Parser.unexpected e) := by
  intro inBody r hr
  have hset := hr.settle
  rcases settle_lexemes r with h | ⟨t, s, ls, h⟩
  · rw [unexpected_run_nil e _ h]
    split
    · exact hset
    · have hempty : Placed source lo ⟨[], r.settle.log⟩ := h ▸ hset
      exact hempty.report (.one rfl (.point (.size source)))
  · rw [unexpected_run_token e _ h]
    have htoken : Placed source lo ⟨.token t s :: ls, r.settle.log⟩ := h ▸ hset
    have hfit := htoken.token.1.fits
    exact Placed.report (d := .unexpectedToken e t s) hset (.one rfl hfit)

theorem accept? {want : Token → Span → Option α} {Q : Nat → Option α → Prop}
    (hsome : ∀ t s a, Found source lo t s → want t s = some a → Q s.stop (some a))
    (hnone : Q lo none) : Traces source lo Q (Parser.accept? want) := by
  intro inBody r hr
  have hset := hr.settle
  rcases settle_lexemes r with h | ⟨t, s, ls, h⟩
  · rw [accept?_run_nil want _ h]
    exact ⟨lo, Nat.le_refl _, hnone, hset⟩
  · by_cases hn : want t s = none
    · rw [accept?_run_none _ h hn]
      exact ⟨lo, Nat.le_refl _, hnone, hset⟩
    · obtain ⟨a, ha⟩ := Option.ne_none_iff_exists'.mp hn
      rw [accept?_run_some _ h ha]
      have htoken : Placed source lo ⟨.token t s :: ls, r.settle.log⟩ := h ▸ hset
      obtain ⟨hfound, hrest⟩ := htoken.token
      exact ⟨s.stop, hfound.le_stop, hsome t s a hfound ha, hrest⟩

theorem require {e : Expectation} {want : Token → Span → Option α}
    (hw : ∀ t s a, Found source lo t s → want t s = some a → Q s.stop a) :
    Traces source lo Q (Parser.require e want) := by
  unfold Parser.require
  refine bind (Q := fun hi found => ∀ a, found = some a → Q hi a) (accept? ?_ ?_) ?_
  · intro t s a hfound ha b hb
    obtain rfl := Option.some.inj hb
    exact hw t s a hfound ha
  · exact fun a ha => by cases ha
  · intro found mid hle hfound
    cases found with
    | some a => exact pure (hfound a rfl)
    | none => exact unexpected e

theorem acceptMark? (p : Punctuation) :
    Traces source lo (fun hi found => ∀ s, found = some s → s.Within source ⟨lo, hi⟩)
      (Parser.acceptMark? p) := by
  refine accept? (fun t s a hfound ha b hb => ?_) fun a ha => by cases ha
  obtain rfl := Option.some.inj hb
  split at ha
  · obtain rfl := Option.some.inj ha
    exact hfound.within
  · cases ha

theorem acceptKeyword? (k : Keyword) :
    Traces source lo (fun hi found => ∀ s, found = some s → s.Within source ⟨lo, hi⟩)
      (Parser.acceptKeyword? k) := by
  refine accept? (fun t s a hfound ha b hb => ?_) fun a ha => by cases ha
  obtain rfl := Option.some.inj hb
  split at ha
  · obtain rfl := Option.some.inj ha
    exact hfound.within
  · cases ha

theorem expectMark (p : Punctuation) :
    Traces source lo (fun hi s => s.Within source ⟨lo, hi⟩) (Parser.expectMark p) := by
  rw [expectMark_eq]
  refine require fun t s a hfound ha => ?_
  split at ha
  · obtain rfl := Option.some.inj ha
    exact hfound.within
  · cases ha

theorem expectKeyword (k : Keyword) :
    Traces source lo (fun hi s => s.Within source ⟨lo, hi⟩) (Parser.expectKeyword k) := by
  rw [expectKeyword_eq]
  refine require fun t s a hfound ha => ?_
  split at ha
  · obtain rfl := Option.some.inj ha
    exact hfound.within
  · cases ha

/-! ### Loops -/

theorem halt (reason : Halt) : Traces source lo Q (Parser.halt reason) := fun _ _ hr => hr

/-- What one turn of a loop yields is a node between the ends of the turn. -/
def Step [Node α] (source : List Char) (lo hi : Nat) (t : Turn α) : Prop :=
  ∀ a, t = .yield a → Lies source ⟨lo, hi⟩ a

theorem stop [Node α] : Traces source lo (Step (α := α) source lo) (Pure.pure .stop) :=
  pure fun a ha => by cases ha

theorem skip [Node α] : Traces source lo (Step (α := α) source lo) (Pure.pure .skip) :=
  pure fun a ha => by cases ha

/-- A turn that began earlier. -/
theorem since [Node α] {turn : Parser (Turn α)} {mid : Nat} (h : lo ≤ mid)
    (ht : Traces source mid (Step source mid) turn) : Traces source mid (Step source lo) turn :=
  mono ht fun hi _ _ hstep a ha => (hstep a ha).mono h (Nat.le_refl hi)

theorem yield [Node α] {p : Parser α} (hp : Traces source lo (fun hi a => Lies source ⟨lo, hi⟩ a) p) :
    Traces source lo (Step source lo) (p >>= fun a => Pure.pure (.yield a)) := by
  refine bind hp fun a mid hle ha => pure fun b hb => ?_
  obtain rfl := Turn.yield.inj hb
  exact ha

/-- What a loop yields stands in a row. -/
theorem collect [Node α] {turn : Parser (Turn α)}
    (ht : ∀ lo, Traces source lo (Step source lo) turn) (budget : List Lexeme) :
    ∀ lo, Traces source lo (fun hi as => Row source lo hi as) (Parser.collect turn budget) := by
  induction budget with
  | nil =>
      intro lo
      refine bind (ht lo) fun t mid hle _ => ?_
      split
      · exact pure hle
      · exact halt .exhausted
  | cons l budget ih =>
      intro lo
      refine bind (ht lo) fun t mid hle hstep => ?_
      cases t with
      | stop => exact pure hle
      | skip => exact mono (ih mid) fun hi as _ has => has.from_earlier hle
      | yield a =>
          refine bind (ih mid) fun as hi _ has => pure ?_
          exact ⟨mid, hstep a rfl, has⟩

theorem many [Node α] {turn : Parser (Turn α)}
    (ht : ∀ lo, Traces source lo (Step source lo) turn) :
    Traces source lo (fun hi as => Row source lo hi as) (Parser.many turn) :=
  fun inBody r hr => collect ht r.lexemes lo inBody r hr

section

variable {P : Nat → α → Prop} {turn : α → Parser (Option α)}
  (hmono : ∀ lo hi a, lo ≤ hi → P lo a → P hi a)
  (ht : ∀ lo a, P lo a → Traces source lo (fun hi next => ∀ b, next = some b → P hi b) (turn a))

include hmono ht

/-- What holds of a state up to where it has been read is kept by each turn. -/
theorem evolve (budget : List Lexeme) :
    ∀ lo a, P lo a → Traces source lo P (Parser.evolve turn budget a) := by
  induction budget with
  | nil =>
      intro lo a ha
      refine bind (ht lo a ha) fun next _ hle _ => ?_
      split
      · exact pure (hmono lo _ a hle ha)
      · exact halt .exhausted
  | cons l budget ih =>
      intro lo a ha
      refine bind (ht lo a ha) fun next mid hle hnext => ?_
      split
      · exact pure (hmono lo _ a hle ha)
      · rename_i b
        exact ih mid b (hnext b rfl)

theorem iterate {a : α} (ha : P lo a) : Traces source lo P (Parser.iterate turn a) :=
  fun inBody r hr => evolve hmono ht r.lexemes lo a ha inBody r hr

end

/-! ### Recovery and bodies -/

theorem attempt {p : Parser α} (hp : Traces source lo Q p) :
    Traces source lo (fun hi found => ∀ a, found = some a → Q hi a) (Parser.attempt p) := by
  intro inBody r hr
  have h := hp inBody r hr
  unfold Parser.attempt
  cases hrun : p ⟨source, inBody⟩ r with
  | done a r' =>
      rw [hrun] at h
      obtain ⟨hi, hle, ha, hr'⟩ := h
      refine ⟨hi, hle, fun b hb => ?_, hr'⟩
      obtain rfl := Option.some.inj hb
      exact ha
  | halted reason r' =>
      rw [hrun] at h
      cases reason with
      | mismatch => exact ⟨lo, Nat.le_refl _, fun b hb => (by cases hb), h⟩
      | unclosed => exact h
      | exhausted => exact h

theorem recover : Traces source lo (fun _ _ => True) Parser.recover :=
  fun _ _ hr => ⟨lo, Nat.le_refl _, trivial, hr.skipStatement⟩

theorem inside {p : Parser α} (hp : Traces source lo Q p) : Traces source lo Q (Parser.inside p) :=
  fun _ r hr => hp true r hr

theorem bodyTurn [Node α] {kind : BodyKind} {opening : Span} {member : Parser α}
    (ho : opening.Fits source)
    (hm : Locates source member) (lo : Nat) :
    Traces source lo (Step source lo) (Parser.bodyTurn kind opening member) := by
  unfold Parser.bodyTurn
  refine peek fun t? => ?_
  split
  · exact report (.one rfl ho) (halt .unclosed)
  · exact stop
  · exact bind (acceptMark? .semicolon) fun s mid hle _ => since hle skip
  · refine bind (attempt (hm lo)) fun found mid hle hfound => ?_
    cases found with
    | some m =>
        refine pure fun a ha => ?_
        obtain rfl := Turn.yield.inj ha
        exact hfound m rfl
    | none => exact bind recover fun _ mid' hle' _ => since (Nat.le_trans hle hle') skip

/-- The members of a body stand in a row, and its closing brace behind them. -/
theorem body {inst : Node α} {kind : BodyKind} {member : Parser α}
    (hm : Locates source member) :
    Traces source lo (fun hi found => found.2.Within source ⟨lo, hi⟩ ∧
      Row source lo found.2.stop found.1) (Parser.body kind member) := by
  rw [body_eq]
  refine bind (expectMark .leftBrace) fun opening a hloa hopening => ?_
  refine bind (inside (many (bodyTurn hopening.fits hm))) fun members b hab hmembers => ?_
  refine bind (expectMark .rightBrace) fun closing c hbc hclosing => pure ⟨?_, ?_⟩
  · exact hclosing.mono (Nat.le_trans hloa hab) (Nat.le_refl c)
  · exact (hmembers.from_earlier hloa).to_later hclosing.le_stop

end Traces

end Parser

end ProtoSchema
