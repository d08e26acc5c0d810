/-
A statement that does not parse fails within its own tokens.

Take a stretch of tokens without braces and semicolons, and what ends it: a semicolon, or the
brace that closes the body around it.  Every production reads within the stretch.  None takes
a semicolon except with its last step, none takes a closing brace that it did not open, and
none opens one here.  So whatever a production makes of the stretch, one of two things comes
of it.

  * It succeeds.  A part of a statement leaves some of the stretch, and a whole statement has
    taken the semicolon and nothing behind it.
  * It halts at a token of the stretch, or at the one that ends it, and reports that token.
    This is the only report of its kind; all others are about values that were read before.

`Bounded` says this of a parser, with the former of the two cases left open: `Confined` is
for the parts and `Ending` for whole statements.
-/
import ProtoSchema.Proofs.Parsing.Yields

namespace ProtoSchema

/-- Whether a lexeme is a token that neither ends a statement nor opens a body. -/
def Lexeme.isPlain : Lexeme → Bool
  | token t _ => t ≠ .mark .semicolon && t ≠ .mark .leftBrace && t ≠ .mark .rightBrace
  | _ => false

/-- Whether a diagnostic is about the value of a literal. -/
def Diagnostic.isAboutValue : Diagnostic → Bool
  | invalidUtf8String _ | invalidImport _ | negativeIdent _ | unknownSyntax .. => true
  | _ => false

/-- A place that runs from one token of a list to another. -/
def Covered (ls : List Lexeme) (s : Span) : Prop :=
  ∃ t a u b, .token t a ∈ ls ∧ .token u b ∈ ls ∧ s = a.through b

/-- Plain tokens, what ends them, and what stands behind. -/
structure Stretch where
  tokens : List Lexeme
  plain : ∀ l ∈ tokens, l.isPlain = true
  stop : Punctuation
  ends : stop = .semicolon ∨ stop = .rightBrace
  place : Span
  behind : List Lexeme

namespace Stretch

variable {w : Stretch} {ls : List Lexeme} {t : Token} {s : Span}

/-- The lexeme that ends a stretch. -/
def last (w : Stretch) : Lexeme := .token (.mark w.stop) w.place

/-- The lexemes that are left at some token of a stretch, or at its end. -/
def At (w : Stretch) (ls : List Lexeme) : Prop :=
  ∃ xs, xs <:+ w.tokens ∧ ls = xs ++ w.last :: w.behind

/-- From one log to another with diagnostics on values in the stretch. -/
def Logs (w : Stretch) (log log' : List Diagnostic) : Prop :=
  ∃ new, log' = new ++ log ∧ ∀ d ∈ new, d.isAboutValue = true ∧ Covered w.tokens d.span

theorem Logs.refl (w : Stretch) (log : List Diagnostic) : w.Logs log log :=
  ⟨[], rfl, fun _ hd => absurd hd List.not_mem_nil⟩

theorem Logs.trans {log₁ log₂ log₃ : List Diagnostic} (h₁ : w.Logs log₁ log₂)
    (h₂ : w.Logs log₂ log₃) : w.Logs log₁ log₃ := by
  obtain ⟨new₁, rfl, hnew₁⟩ := h₁
  obtain ⟨new₂, rfl, hnew₂⟩ := h₂
  refine ⟨new₂ ++ new₁, (List.append_assoc _ _ _).symm, fun d hd => ?_⟩
  rcases List.mem_append.mp hd with hd | hd
  · exact hnew₂ d hd
  · exact hnew₁ d hd

/-- What comes next is a plain token of the stretch, or what ends it. -/
theorem At.cases (h : w.At ls) :
    (∃ t s rest, ls = .token t s :: rest ∧ .token t s ∈ w.tokens ∧
      (Lexeme.token t s).isPlain = true ∧ w.At rest) ∨ ls = w.last :: w.behind := by
  obtain ⟨xs, hsuf, rfl⟩ := h
  cases xs with
  | nil => exact Or.inr rfl
  | cons x xs =>
      have hmem : x ∈ w.tokens := hsuf.subset List.mem_cons_self
      have hplain := w.plain x hmem
      cases x with
      | token t s => exact Or.inl ⟨t, s, _, rfl, hmem, hplain, xs, (List.suffix_cons _ _).trans hsuf, rfl⟩
      | illegal c s => cases hplain
      | note d => cases hplain

/-- Where a stretch goes on, or ends, there is a token. -/
theorem At.exists_token (h : w.At ls) :
    ∃ t s rest, ls = .token t s :: rest ∧ t ≠ .mark .leftBrace := by
  rcases h.cases with ⟨t, s, rest, rfl, -, hplain, -⟩ | rfl
  · refine ⟨t, s, rest, rfl, fun ht => ?_⟩
    rw [ht] at hplain
    cases hplain
  · refine ⟨_, _, _, rfl, fun ht => ?_⟩
    rcases w.ends with hs | hs
    · rw [hs] at ht
      cases ht
    · rw [hs] at ht
      cases ht

theorem At.settle {r : Remainder} (h : w.At r.lexemes) : r.settle = r := by
  obtain ⟨t, s, rest, hls, -⟩ := h.exists_token
  exact Remainder.settle_of_token hls

/-- Values with a property, and a stretch that is not yet at its end. -/
def Within {α : Type} (w : Stretch) (Q : α → Prop) (a : α) (ls : List Lexeme) : Prop :=
  Q a ∧ w.At ls

/-- A stretch that has been taken with the semicolon that ends it. -/
def Past {α : Type} (w : Stretch) (_ : α) (ls : List Lexeme) : Prop :=
  w.stop = .semicolon ∧ ls = w.behind

/-- What a parser made of a token of the stretch. -/
def Makes {α : Type} (w : Stretch) (form : Token → Span → Option α) (a : α) : Prop :=
  ∃ t s, .token t s ∈ w.tokens ∧ form t s = some a

end Stretch

namespace Parser

open Remainder

variable {α β : Type} {w : Stretch} {P : α → List Lexeme → Prop} {P' : β → List Lexeme → Prop}
  {Q : α → Prop} {r r₁ : Remainder}

/-- The outcome of a parser that reads within a stretch. -/
inductive Stays (w : Stretch) (P : α → List Lexeme → Prop) (r : Remainder) : Outcome α → Prop
  | done {a : α} {r' : Remainder} (value : P a r'.lexemes) (logs : w.Logs r.log r'.log) :
      Stays w P r (.done a r')
  | mismatch {e : Expectation} {t : Token} {s : Span} {rest : List Lexeme} {log : List Diagnostic}
      (stays : w.At (.token t s :: rest)) (logs : w.Logs r.log log) :
      Stays w P r (.halted .mismatch ⟨.token t s :: rest, .unexpectedToken e t s :: log⟩)
  | exhausted {r' : Remainder} : Stays w P r (.halted .exhausted r')

/-- A halt does not depend on the type of the value that is missing. -/
theorem Stays.halted {reason : Halt} (h : Stays w P r (.halted reason r₁)) :
    Stays w P' r (.halted reason r₁) := by
  cases h with
  | mismatch stays logs => exact .mismatch stays logs
  | exhausted => exact .exhausted

theorem Stays.prepend {o : Outcome α} (hr : w.Logs r.log r₁.log) (h : Stays w P r₁ o) :
    Stays w P r o := by
  cases h with
  | done value logs => exact .done value (hr.trans logs)
  | mismatch stays logs => exact .mismatch stays (hr.trans logs)
  | exhausted => exact .exhausted

/-- A parser that reads within a stretch, wherever in it it starts. -/
def Bounded (w : Stretch) (P : α → List Lexeme → Prop) (p : Parser α) : Prop :=
  ∀ env r, w.At r.lexemes → Stays w P r (p env r)

/-- A part of a statement. -/
abbrev Confined (w : Stretch) (p : Parser α) : Prop := Bounded w (w.Within fun _ => True) p

/-- A statement with the semicolon that ends it. -/
abbrev Ending (w : Stretch) (p : Parser α) : Prop := Bounded w w.Past p

namespace Bounded

/-! ### Sequences -/

theorem pure {a : α} (ha : Q a) : Bounded w (w.Within Q) (Pure.pure a : Parser α) :=
  fun _ r hr => .done ⟨ha, hr⟩ (.refl w r.log)

theorem bind {p : Parser α} {f : α → Parser β} (hp : Bounded w (w.Within Q) p)
    (hf : ∀ a, Q a → Bounded w P' (f a)) : Bounded w P' (p >>= f) := by
  intro env r hr
  have h := hp env r hr
  rw [bind_run]
  cases ho : p env r with
  | done a r₁ =>
      rw [ho] at h
      cases h with
      | done value logs => exact (hf a value.1 env r₁ value.2).prepend logs
  | halted reason r₁ =>
      rw [ho] at h
      exact h.halted

/-- A part whose value does not matter. -/
theorem seq {p : Parser α} {f : α → Parser β} (hp : Confined w p)
    (hf : ∀ a, Bounded w P' (f a)) : Bounded w P' (p >>= f) :=
  bind hp fun a _ => hf a

theorem relax {p : Parser α} (hp : Bounded w (w.Within Q) p) : Confined w p := by
  rw [← bind_pure p]
  exact bind hp fun a _ => pure trivial

/-- What is made of a statement that was read as a whole. -/
theorem map {p : Parser α} (f : α → β) (hp : Ending w p) : Ending w (f <$> p) := by
  intro env r hr
  have h := hp env r hr
  rw [← bind_pure_comp, bind_run]
  cases ho : p env r with
  | done a r₁ =>
      rw [ho] at h
      cases h with
      | done value logs => exact .done value logs
  | halted reason r₁ =>
      rw [ho] at h
      exact h.halted

/-! ### Single tokens -/

theorem peek : Confined w peek := by
  intro env r hr
  rw [peek_run, hr.settle]
  exact .done ⟨trivial, hr⟩ (.refl w r.log)

theorem peekKeyword : Confined w peekKeyword := by
  intro env r hr
  rw [peekKeyword_run, hr.settle]
  exact .done ⟨trivial, hr⟩ (.refl w r.log)

theorem unexpected (e : Expectation) : Bounded w P (unexpected e) := by
  intro env r hr
  obtain ⟨t, s, rest, hls, -⟩ := hr.exists_token
  have hset : r.settle.lexemes = .token t s :: rest := by rw [hr.settle, hls]
  rw [unexpected_run_token e env hset, hset, hr.settle]
  rw [hls] at hr
  exact .mismatch hr (.refl w r.log)

theorem halt_exhausted : Bounded w P (Parser.halt .exhausted) := fun _ _ _ => .exhausted

theorem report {d : Diagnostic} (hd : d.isAboutValue = true) (hs : Covered w.tokens d.span) :
    Confined w (report d) := by
  refine fun _ r hr => .done ⟨trivial, hr⟩ ⟨[d], rfl, fun d' hd' => ?_⟩
  obtain rfl := List.mem_singleton.mp hd'
  exact ⟨hd, hs⟩

/-- A wanted token, which is none that could end the stretch. -/
theorem accept? {want : Token → Span → Option α} (hs : ∀ s, want (.mark .semicolon) s = none)
    (hb : ∀ s, want (.mark .rightBrace) s = none) :
    Bounded w (w.Within fun found => ∀ a, found = some a → w.Makes want a) (accept? want) := by
  intro env r hr
  have hnone {t : Token} {s : Span} {rest : List Lexeme} (hls : r.lexemes = .token t s :: rest)
      (hw : want t s = none) :
      Stays w (w.Within fun found => ∀ a, found = some a → w.Makes want a) r
        (Parser.accept? want env r) := by
    rw [accept?_run_none env (by rw [hr.settle, hls]) hw, hr.settle]
    exact .done ⟨nofun, hr⟩ (.refl w r.log)
  rcases hr.cases with ⟨t, s, rest, hls, hmem, -, hrest⟩ | hls
  · by_cases hw : want t s = none
    · exact hnone hls hw
    · obtain ⟨a, ha⟩ := Option.ne_none_iff_exists'.mp hw
      rw [accept?_run_some env (by rw [hr.settle, hls]) ha, hr.settle]
      refine .done ⟨fun b hb => ?_, hrest⟩ (.refl w r.log)
      obtain rfl := Option.some.inj hb
      exact ⟨t, s, hmem, ha⟩
  · refine hnone hls ?_
    rcases w.ends with h | h
    · rw [h]
      exact hs _
    · rw [h]
      exact hb _

theorem require {e : Expectation} {want : Token → Span → Option α}
    (hs : ∀ s, want (.mark .semicolon) s = none) (hb : ∀ s, want (.mark .rightBrace) s = none) :
    Bounded w (w.Within (w.Makes want)) (require e want) := by
  unfold Parser.require
  refine bind (accept? hs hb) fun found hfound => ?_
  split
  · rename_i a
    exact pure (hfound a rfl)
  · exact unexpected e

theorem acceptMark? {p : Punctuation} (hs : p ≠ .semicolon) (hb : p ≠ .rightBrace) :
    Confined w (acceptMark? p) := by
  refine relax (accept? (fun s => if_neg ?_) (fun s => if_neg ?_))
  · exact fun h => hs (Token.mark.inj h).symm
  · exact fun h => hb (Token.mark.inj h).symm

/-- A mark that must come next stands among the tokens. -/
theorem expectMarkAt {p : Punctuation} (hs : p ≠ .semicolon) (hb : p ≠ .rightBrace) :
    Bounded w (w.Within fun s => ∃ t, .token t s ∈ w.tokens) (expectMark p) := by
  rw [expectMark_eq, ← bind_pure (Parser.require _ _)]
  refine bind (require (fun s => if_neg ?_) (fun s => if_neg ?_)) fun s hmakes => pure ?_
  · exact fun h => hs (Token.mark.inj h).symm
  · exact fun h => hb (Token.mark.inj h).symm
  · obtain ⟨t, s', hmem, heq⟩ := hmakes
    dsimp only at heq
    split at heq
    · cases heq
      exact ⟨t, hmem⟩
    · cases heq

theorem expectMark {p : Punctuation} (hs : p ≠ .semicolon) (hb : p ≠ .rightBrace) :
    Confined w (expectMark p) := relax (expectMarkAt hs hb)

theorem acceptKeyword? (k : Keyword) : Confined w (acceptKeyword? k) :=
  relax (accept? (fun _ => if_neg Token.noConfusion) fun _ => if_neg Token.noConfusion)

theorem expectKeyword (k : Keyword) : Confined w (expectKeyword k) := by
  rw [expectKeyword_eq]
  exact relax (require (fun _ => if_neg Token.noConfusion) fun _ => if_neg Token.noConfusion)

/-- The semicolon is the last step of a statement. -/
theorem semicolon (f : Span → α) : Ending w (do
    let s ← Parser.expectMark .semicolon
    Pure.pure (f s)) := by
  intro env r hr
  rcases expectMark_bind .semicolon (fun s => (Pure.pure (f s) : Parser α)) env r with
    ⟨s, ls, hset, hrun⟩ | hrun
  · rw [hrun]
    rw [hr.settle] at hset ⊢
    refine .done ?_ (.refl w r.log)
    rcases hr.cases with ⟨t, s', rest, hls, -, hplain, -⟩ | hls
    · rw [hls] at hset
      cases hset
      cases hplain
    · rw [hls] at hset
      obtain ⟨hlast, hbehind⟩ := List.cons.inj hset
      exact ⟨Token.mark.inj (Lexeme.token.inj hlast).1, hbehind.symm⟩
  · rw [hrun, hr.settle]
    exact unexpected _ env r hr

/-- No body opens in a stretch, and no block. -/
theorem leftBrace (f : Span → Parser α) : Bounded w P (Parser.expectMark .leftBrace >>= f) := by
  intro env r hr
  rcases expectMark_bind .leftBrace f env r with ⟨s, ls, hset, -⟩ | hrun
  · obtain ⟨t, s', rest, hls, hne⟩ := hr.exists_token
    rw [hr.settle, hls] at hset
    cases hset
    exact absurd rfl hne
  · rw [hrun, hr.settle]
    exact unexpected _ env r hr

theorem body (kind : BodyKind) (member : Parser β) (f : List β × Span → Parser α) :
    Bounded w P (Parser.body kind member >>= f) := by
  rw [body_eq, bind_assoc]
  exact leftBrace _

/-! ### Loops -/

theorem collect {turn : Parser (Turn α)} (ht : Bounded w (w.Within (Turn.Gives Q)) turn)
    (budget : List Lexeme) :
    Bounded w (w.Within fun as => ∀ a ∈ as, Q a) (collect turn budget) := by
  induction budget with
  | nil =>
      refine bind ht fun t _ => ?_
      split
      · exact pure fun a ha => absurd ha List.not_mem_nil
      · exact halt_exhausted
  | cons l budget ih =>
      refine bind ht fun t hgives => ?_
      cases t with
      | stop => exact pure fun a ha => absurd ha List.not_mem_nil
      | skip => exact ih
      | yield a =>
          refine bind ih fun as has => pure fun b hb => ?_
          rcases List.mem_cons.mp hb with heq | hmem
          · rw [heq]
            exact hgives a rfl
          · exact has b hmem

theorem manyThat {turn : Parser (Turn α)} (ht : Bounded w (w.Within (Turn.Gives Q)) turn) :
    Bounded w (w.Within fun as => ∀ a ∈ as, Q a) (many turn) :=
  fun env r => collect ht r.lexemes env r

theorem many {turn : Parser (Turn α)} (ht : Confined w turn) : Confined w (many turn) := by
  refine relax (manyThat (Q := fun _ => True) ?_)
  rw [← bind_pure turn]
  exact bind ht fun t _ => pure fun a _ => trivial

/-! ### Names -/

theorem ident : Confined w ident := relax (require (fun _ => rfl) fun _ => rfl)

theorem dottedName (stop : Terminator) : Confined w (dottedName stop) := by
  rw [dottedName_eq]
  refine seq ident fun first => seq (many ?_) fun rest => pure trivial
  unfold nameTurn
  refine seq (acceptMark? (by decide) (by decide)) fun found => ?_
  split
  · exact seq ident fun word => pure trivial
  · refine seq peek fun t? => ?_
    split
    · split
      · exact pure trivial
      · exact unexpected _
    · exact unexpected _

theorem typeName (stop : Terminator) : Confined w (typeName stop) := by
  unfold Parser.typeName
  refine seq peek fun t? => ?_
  split
  · refine seq (expectMark (by decide) (by decide)) fun dot => ?_
    exact seq (dottedName stop) fun name => pure trivial
  · exact seq (dottedName stop) fun name => pure trivial
  · exact unexpected _

/-! ### Literals -/

theorem integer : Confined w integer := by
  unfold Parser.integer
  refine seq (acceptMark? (by decide) (by decide)) fun minus => ?_
  refine seq (relax (require (fun _ => rfl) fun _ => rfl)) fun ns => ?_
  split
  split
  · exact pure trivial
  · exact pure trivial

theorem exists_token_of_quoted {s : StringLiteral} (h : w.Makes quoted? s) :
    ∃ t, .token t s.span ∈ w.tokens := by
  obtain ⟨t, s', hmem, heq⟩ := h
  unfold quoted? at heq
  split at heq
  · cases heq
    exact ⟨_, hmem⟩
  · cases heq

/-- A string stands where its parts stand. -/
theorem stringLiteral : Bounded w (w.Within fun s => Covered w.tokens s.span) stringLiteral := by
  rw [stringLiteral_eq]
  refine bind (require (fun _ => rfl) fun _ => rfl) fun first hfirst => ?_
  refine bind (manyThat (Q := w.Makes quoted?) ?_) fun rest hrest => pure ?_
  · unfold stringTurn
    refine bind (accept? (fun _ => rfl) fun _ => rfl) fun found hfound => ?_
    split
    · rename_i s
      refine pure fun a ha => ?_
      cases ha
      exact hfound s rfl
    · exact pure nofun
  · obtain ⟨t, ht⟩ := exists_token_of_quoted hfirst
    have hlast : w.Makes quoted? (rest.getLastD first) := by
      have hmem : rest.getLastD first ∈ first :: rest := List.getLastD_mem_cons
      rcases List.mem_cons.mp hmem with heq | hmem
      · rw [heq]
        exact hfirst
      · exact hrest _ hmem
    obtain ⟨u, hu⟩ := exists_token_of_quoted hlast
    exact ⟨t, _, u, _, ht, hu, rfl⟩

theorem textLiteral : Bounded w (w.Within fun n => Covered w.tokens n.span) textLiteral := by
  unfold Parser.textLiteral
  refine bind stringLiteral fun s hs => ?_
  split
  · exact pure hs
  · exact seq (report rfl hs) fun _ => pure hs

end Bounded

end Parser

end ProtoSchema
