/-
What parsers make of the lexemes they read.

A value that a parser gives is made of tokens, and a parser never invents one.  So what is
true of every lexeme of a source can be carried over to the trees that are made of them:
`Yields L P p` says that `p`, wherever all lexemes in front of it satisfy `L`, gives values
that satisfy `P`.

The lexemes that are left then satisfy `L` as well, because they are among those that were
there before.  Where a parser is known to be orderly this needs no proof, so the parts of a
production whose values do not matter are passed over.  A parser that halts says nothing
about values, but what it leaves behind a mismatch is read by whatever recovers from it.
-/
import ProtoSchema.Proofs.Parsing.Productions

namespace ProtoSchema

open Remainder

/-- What is left after reading was there before. -/
theorem Remainder.Reads.subset {xs ys : List Span} {r r' : Remainder} (h : Reads xs r r' ys) :
    r'.lexemes ⊆ r.lexemes := by
  obtain ⟨seg, new, hs, -⟩ := h
  rw [hs]
  exact List.subset_append_right seg r'.lexemes

/-- All lexemes in front of a parser satisfy `L`. -/
def Remainder.All (L : Lexeme → Prop) (r : Remainder) : Prop := ∀ l ∈ r.lexemes, L l

theorem Remainder.All.reads {L : Lexeme → Prop} {xs ys : List Span} {r r' : Remainder}
    (hr : r.All L) (h : Reads xs r r' ys) : r'.All L :=
  fun l hl => hr l (h.subset hl)

/-- An outcome with a value that satisfies `P`, before lexemes that satisfy `L`. -/
def Outcome.Holds {α : Type} (L : Lexeme → Prop) (P : α → Prop) : Outcome α → Prop
  | .done a r => P a ∧ r.All L
  | .halted .mismatch r => r.All L
  | .halted _ _ => True

/-- A halt does not depend on the type of the value that is missing. -/
theorem Outcome.Holds.halted {α β : Type} {L : Lexeme → Prop} {P : α → Prop} {Q : β → Prop}
    {reason : Halt} {r : Remainder} (h : (Outcome.halted reason r : Outcome α).Holds L P) :
    (Outcome.halted reason r : Outcome β).Holds L Q := by
  cases reason with
  | mismatch => exact h
  | unclosed => trivial
  | exhausted => trivial

namespace Parser

variable {α β : Type} {L : Lexeme → Prop} {P : α → Prop} {Q : β → Prop} {n : Nat}
  {strict : Bool} {env : Surroundings} {r : Remainder}

/-- What a turn of a loop yields satisfies `P`, if it yields anything. -/
def Turn.Gives (P : α → Prop) (t : Turn α) : Prop := ∀ a, t = .yield a → P a

/-- A parser that makes values that satisfy `P` of lexemes that satisfy `L`. -/
def Yields (L : Lexeme → Prop) (P : α → Prop) (p : Parser α) : Prop :=
  ∀ env r, r.All L → (p env r).Holds L P

/-- Nothing that is orderly adds to the lexemes. -/
theorem Ordered.holds {o : Outcome α} (ho : Ordered n strict env r o) (hr : r.All L) :
    o.Holds L fun _ => True := by
  cases ho with
  | done reads shorter => exact ⟨trivial, hr.reads reads⟩
  | unexpected reads token => exact fun l hl => hr.reads reads l hl
  | silent inBody reads ends => exact hr.reads reads
  | eof inBody reads ends => exact fun l hl => absurd hl List.not_mem_nil
  | unclosed reads ends mem => trivial
  | exhausted budget => trivial

namespace Yields

/-! ### Sequences -/

theorem of_orderly {p : Parser α} (hp : Orderly 0 strict p) : Yields L (fun _ => True) p :=
  fun env r hr => (hp env r).holds hr

/-- A parser whose values can only be of some shape, whatever they are made of. -/
theorem of_done {p : Parser α} (hp : Orderly 0 strict p)
    (h : ∀ env r a r', p env r = .done a r' → P a) : Yields L P p := by
  intro env r hr
  have hholds : (p env r).Holds L fun _ => True := (hp env r).holds hr
  cases hrun : p env r with
  | done a r' =>
      rw [hrun] at hholds
      exact ⟨h env r a r' hrun, hholds.2⟩
  | halted reason r' =>
      rw [hrun] at hholds
      exact Outcome.Holds.halted hholds

theorem pure {a : α} (ha : P a) : Yields L P (Pure.pure a : Parser α) :=
  fun _ _ hr => ⟨ha, hr⟩

theorem bind {p : Parser α} {f : α → Parser β} (hp : Yields L P p)
    (hf : ∀ a, P a → Yields L Q (f a)) : Yields L Q (p >>= f) := by
  intro env r hr
  have h := hp env r hr
  rw [bind_run]
  cases ho : p env r with
  | done a r₁ =>
      rw [ho] at h
      exact hf a h.1 env r₁ h.2
  | halted reason r₁ =>
      rw [ho] at h
      exact Outcome.Holds.halted h

/-- A part whose value does not matter. -/
theorem after {p : Parser α} {f : α → Parser β} (hp : Orderly 0 strict p)
    (hf : ∀ a, Yields L Q (f a)) : Yields L Q (p >>= f) :=
  bind (of_orderly hp) fun a _ => hf a

theorem map {p : Parser α} (f : α → β) (hp : Yields L (fun a => Q (f a)) p) :
    Yields L Q (f <$> p) := by
  rw [← bind_pure_comp]
  exact bind hp fun a ha => pure ha

theorem mono {p : Parser α} {P' : α → Prop} (hp : Yields L P p) (h : ∀ a, P a → P' a) :
    Yields L P' p := by
  rw [← bind_pure p]
  exact bind hp fun a ha => pure (h a ha)

/-! ### Single tokens -/

theorem unexpected (e : Expectation) : Yields L P (unexpected e : Parser α) := by
  intro env r hr
  have hset := hr.reads (reads_settle [] r)
  rcases settle_lexemes r with h | ⟨t, s, ls, h⟩
  · rw [unexpected_run_nil e env h]
    by_cases hb : env.inBody = true
    · rw [if_pos hb]
      exact hset
    · rw [if_neg hb]
      exact fun l hl => absurd hl List.not_mem_nil
  · rw [unexpected_run_token e env h]
    exact fun l hl => hset l hl

/-- What is made of a token. -/
theorem accept? {want : Token → Span → Option α}
    (hw : ∀ t s a, L (.token t s) → want t s = some a → P a) :
    Yields L (fun found => ∀ a, found = some a → P a) (accept? want) := by
  intro env r hr
  have hset := hr.reads (reads_settle [] r)
  rcases settle_lexemes r with h | ⟨t, s, ls, h⟩
  · rw [accept?_run_nil want env h]
    exact ⟨fun a ha => (by cases ha), hset⟩
  · by_cases hn : want t s = none
    · rw [accept?_run_none env h hn]
      exact ⟨fun a ha => (by cases ha), hset⟩
    · obtain ⟨a, ha⟩ := Option.ne_none_iff_exists'.mp hn
      have hmem : ∀ l ∈ Lexeme.token t s :: ls, L l := by
        intro l hl
        rw [← h] at hl
        exact hset l hl
      rw [accept?_run_some env h ha]
      refine ⟨fun b hb => ?_, fun l hl => hmem l (List.mem_cons_of_mem _ hl)⟩
      obtain rfl := Option.some.inj hb
      exact hw t s a (hmem _ List.mem_cons_self) ha

theorem require {e : Expectation} {want : Token → Span → Option α}
    (hw : ∀ t s a, L (.token t s) → want t s = some a → P a) :
    Yields L P (require e want) := by
  unfold Parser.require
  refine bind (accept? hw) fun found hfound => ?_
  split
  · rename_i a
    exact pure (hfound a rfl)
  · exact unexpected e

/-! ### Loops -/

theorem stop : Yields L (Turn.Gives P) (Pure.pure .stop : Parser (Turn α)) :=
  pure fun a ha => by cases ha

theorem skip : Yields L (Turn.Gives P) (Pure.pure .skip : Parser (Turn α)) :=
  pure fun a ha => by cases ha

theorem yield {p : Parser α} (hp : Yields L P p) :
    Yields L (Turn.Gives P) (p >>= fun a => Pure.pure (.yield a)) := by
  refine bind hp fun a ha => pure fun b hb => ?_
  obtain rfl := Turn.yield.inj hb
  exact ha

theorem halt (reason : Halt) (h : reason ≠ .mismatch) :
    Yields L P (Parser.halt reason : Parser α) := by
  intro env r hr
  cases reason with
  | mismatch => exact absurd rfl h
  | unclosed => trivial
  | exhausted => trivial

theorem collect {turn : Parser (Turn α)} (ht : Yields L (Turn.Gives P) turn)
    (budget : List Lexeme) : Yields L (fun as => ∀ a ∈ as, P a) (collect turn budget) := by
  induction budget with
  | nil =>
      refine bind ht fun t _ => ?_
      split
      · exact pure fun a ha => absurd ha List.not_mem_nil
      · exact halt .exhausted (by decide)
  | cons l budget ih =>
      refine bind ht fun t hgives => ?_
      cases t with
      | stop => exact pure fun a ha => absurd ha List.not_mem_nil
      | skip => exact ih
      | yield a =>
          refine bind ih fun as has => pure fun b hb => ?_
          rcases List.mem_cons.mp hb with heq | hmem
          · rw [heq]
            exact hgives a rfl
          · exact has b hmem

theorem many {turn : Parser (Turn α)} (ht : Yields L (Turn.Gives P) turn) :
    Yields L (fun as => ∀ a ∈ as, P a) (many turn) :=
  fun env r => collect ht r.lexemes env r

theorem evolve {turn : α → Parser (Option α)}
    (ht : ∀ a, P a → Yields L (fun next => ∀ b, next = some b → P b) (turn a))
    (budget : List Lexeme) : ∀ a, P a → Yields L P (evolve turn budget a) := by
  induction budget with
  | nil =>
      intro a ha
      refine bind (ht a ha) fun next _ => ?_
      split
      · exact pure ha
      · exact halt .exhausted (by decide)
  | cons l budget ih =>
      intro a ha
      refine bind (ht a ha) fun next hnext => ?_
      split
      · exact pure ha
      · rename_i b
        exact ih b (hnext b rfl)

theorem iterate {turn : α → Parser (Option α)} {a : α}
    (ht : ∀ a, P a → Yields L (fun next => ∀ b, next = some b → P b) (turn a)) (ha : P a) :
    Yields L P (iterate turn a) :=
  fun env r => evolve ht r.lexemes a ha env r

/-! ### Recovery and bodies -/

theorem attempt {p : Parser α} (hp : Yields L P p) :
    Yields L (fun found => ∀ a, found = some a → P a) (attempt p) := by
  intro env r hr
  have h := hp env r hr
  unfold Parser.attempt
  cases hrun : p env r with
  | done a r' =>
      rw [hrun] at h
      refine ⟨fun b hb => ?_, h.2⟩
      obtain rfl := Option.some.inj hb
      exact h.1
  | halted reason r' =>
      rw [hrun] at h
      cases reason with
      | mismatch => exact ⟨fun b hb => (by cases hb), h⟩
      | unclosed => trivial
      | exhausted => trivial

theorem recover : Yields L (fun _ => True) recover := by
  intro env r hr
  obtain ⟨ys, hreads, -⟩ := reads_skipStatement r.lexemes 0 r.log [] rfl
  exact ⟨trivial, hr.reads hreads⟩

theorem inside {p : Parser α} (hp : Yields L P p) : Yields L P (inside p) :=
  fun env r hr => hp { env with inBody := true } r hr

/-- A brace changes nothing in what is left, except that it is gone. -/
theorem expectMark (p : Punctuation) : Yields L (fun _ => True) (expectMark p) := by
  rw [expectMark_eq]
  exact require fun _ _ _ _ _ => trivial

theorem bodyTurn {kind : BodyKind} {opening : Span} {member : Parser α} (hm : Yields L P member) :
    Yields L (Turn.Gives P) (bodyTurn kind opening member) := by
  unfold Parser.bodyTurn
  refine after .peek fun t? => ?_
  split
  · refine bind (P := fun _ => True) (fun _ _ hr => ⟨trivial, hr⟩) fun _ _ => ?_
    exact halt .unclosed (by decide)
  · exact stop
  · exact after (.acceptMark? (by decide) (by decide)) fun _ => skip
  · refine bind (attempt hm) fun found hfound => ?_
    split
    · rename_i m
      refine pure fun a ha => ?_
      obtain rfl := Turn.yield.inj ha
      exact hfound m rfl
    · exact bind recover fun _ _ => skip

/-- The members of a body are those that its parser gives. -/
theorem body {kind : BodyKind} {member : Parser α} (hm : Yields L P member) :
    Yields L (fun found => ∀ m ∈ found.1, P m) (body kind member) := by
  rw [body_eq]
  refine bind (expectMark .leftBrace) fun opening _ => ?_
  refine bind (inside (many (bodyTurn hm))) fun members hmembers => ?_
  exact bind (expectMark .rightBrace) fun closing _ => pure hmembers

end Yields

end Parser

end ProtoSchema
