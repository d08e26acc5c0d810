/-
How parsers read.

Whatever a parser does, it takes lexemes from the front and adds to the log.  Three more
things hold of every production of the grammar, and they are what keeps an error in a
source from disturbing the structure around it.

  * It closes the braces that it opens.  What was taken leaves the stack of open braces
    as it was, unless the source ended on the way.
  * If it halts because of a mismatch, the last thing in the log is what was found
    instead.  Only the end of the source within a body goes unreported.
  * It has enough turns.  A production that counts its turns off against `n` lexemes
    halts for the lack of them only where more than `n` are left.

`Ordered` says this of one outcome and `Orderly` of a parser.  The combinators keep it, so
a production is orderly because its parts are.  With `strict` the property says as
well that a parser which succeeds has taken something; loops need that of their turns.
-/
import ProtoSchema.Grammar.Parser
import ProtoSchema.Proofs.Parsing.Braces

namespace ProtoSchema

/-- Whether a diagnostic says that the source ends too early. -/
def Diagnostic.isAtEnd : Diagnostic → Bool
  | unexpectedEof .. | unterminatedBody .. => true
  | _ => false

namespace Remainder

variable {r r₁ r₂ : Remainder} {xs ys zs : List Span}

/-! ### From one remainder to another -/

/--
What is left after `r` has been read up to `r'`, and what that did to the open braces.
The parser itself reports nothing on the way about the end of the source.
-/
def Reads (xs : List Span) (r r' : Remainder) (ys : List Span) : Prop :=
  ∃ (seg : List Lexeme) (new : List Diagnostic), r.lexemes = seg ++ r'.lexemes ∧
    r'.log = new ++ r.log ∧ Leads xs seg ys ∧ ∀ d ∈ new, d.isAtEnd = true → .note d ∈ seg

namespace Reads

theorem refl (xs : List Span) (r : Remainder) : Reads xs r r xs :=
  ⟨[], [], rfl, rfl, .nil xs, by simp⟩

theorem trans (h₁ : Reads xs r r₁ ys) (h₂ : Reads ys r₁ r₂ zs) : Reads xs r r₂ zs := by
  obtain ⟨seg₁, new₁, hs₁, hl₁, hb₁, hd₁⟩ := h₁
  obtain ⟨seg₂, new₂, hs₂, hl₂, hb₂, hd₂⟩ := h₂
  refine ⟨seg₁ ++ seg₂, new₂ ++ new₁, ?_, ?_, hb₁.append hb₂, ?_⟩
  · rw [hs₁, hs₂, List.append_assoc]
  · rw [hl₂, hl₁, List.append_assoc]
  · intro d hd hend
    rcases List.mem_append.mp hd with hd | hd
    · exact List.mem_append_right _ (hd₂ d hd hend)
    · exact List.mem_append_left _ (hd₁ d hd hend)

theorem frame (h : Reads xs r r₁ ys) (zs : List Span) : Reads (xs ++ zs) r r₁ (ys ++ zs) := by
  obtain ⟨seg, new, hs, hl, hb, hd⟩ := h
  exact ⟨seg, new, hs, hl, hb.frame zs, hd⟩

theorem length_le (h : Reads xs r r₁ ys) : r₁.lexemes.length ≤ r.lexemes.length := by
  obtain ⟨seg, -, hs, -⟩ := h
  rw [hs, List.length_append]
  omega

/-- If no lexeme less is left, none was read. -/
theorem eq_of_length_le (h : Reads xs r r₁ ys) (hle : r.lexemes.length ≤ r₁.lexemes.length) :
    r₁.lexemes = r.lexemes := by
  obtain ⟨seg, -, hs, -⟩ := h
  rw [hs, List.length_append] at hle
  have hseg : seg = [] := List.length_eq_zero_iff.mp (by omega)
  rw [hs, hseg, List.nil_append]

/-- Where no lexeme is left, none is read. -/
theorem of_nil (h : Reads xs r r₁ ys) (hr : r.lexemes = []) :
    xs = ys ∧ ∀ zs, Reads zs r r₁ zs := by
  obtain ⟨seg, new, hs, hl, hb, hd⟩ := h
  rw [hr] at hs
  obtain ⟨rfl, -⟩ := List.append_eq_nil_iff.mp hs.symm
  exact ⟨hb.eq_of_nil, fun zs => ⟨[], new, by rw [hr]; exact hs, hl, .nil zs, hd⟩⟩

/-- One lexeme less. -/
theorem lexeme {l : Lexeme} {ls : List Lexeme} (log : List Diagnostic) (h : Leads xs [l] ys) :
    Reads xs ⟨l :: ls, log⟩ ⟨ls, log⟩ ys :=
  ⟨[l], [], rfl, rfl, h, by simp⟩

/-- One diagnostic more. -/
theorem report {d : Diagnostic} (hd : d.isAtEnd = false) (xs : List Span)
    (ls : List Lexeme) (log : List Diagnostic) : Reads xs ⟨ls, log⟩ ⟨ls, d :: log⟩ xs :=
  ⟨[], [d], rfl, rfl, .nil xs, by simp [hd]⟩

/-- A note of the scanner goes to the log. -/
theorem note (d : Diagnostic) (xs : List Span) (ls : List Lexeme) (log : List Diagnostic) :
    Reads xs ⟨.note d :: ls, log⟩ ⟨ls, d :: log⟩ xs :=
  ⟨[.note d], [d], rfl, rfl, .plain rfl xs, by simp⟩

/-- A character that starts no token goes to the log. -/
theorem illegal (c : Char) (s : Span) (xs : List Span) (ls : List Lexeme)
    (log : List Diagnostic) :
    Reads xs ⟨.illegal c s :: ls, log⟩ ⟨ls, .invalidToken c s :: log⟩ xs :=
  (lexeme log (.plain rfl xs)).trans (report rfl xs ls log)

end Reads

/-! ### Up to the next token -/

theorem reads_settleWith (xs : List Span) (ls : List Lexeme) :
    ∀ log, Reads xs ⟨ls, log⟩ (settleWith log ls) xs := by
  induction ls with
  | nil => intro log; exact .refl xs _
  | cons l ls ih =>
      intro log
      cases l with
      | token t s => exact .refl xs _
      | illegal c s => exact (Reads.illegal c s xs ls log).trans (ih _)
      | note d => exact (Reads.note d xs ls log).trans (ih _)

theorem reads_settle (xs : List Span) (r : Remainder) : Reads xs r r.settle xs :=
  reads_settleWith xs r.lexemes r.log

theorem settleWith_lexemes (ls : List Lexeme) :
    ∀ log, (settleWith log ls).lexemes = [] ∨
      ∃ t s rest, (settleWith log ls).lexemes = .token t s :: rest := by
  induction ls with
  | nil => intro log; exact Or.inl rfl
  | cons l ls ih =>
      intro log
      cases l with
      | token t s => exact Or.inr ⟨t, s, ls, rfl⟩
      | illegal c s => exact ih _
      | note d => exact ih _

/-- Behind notes and illegal characters stands a token or nothing. -/
theorem settle_lexemes (r : Remainder) :
    r.settle.lexemes = [] ∨ ∃ t s rest, r.settle.lexemes = .token t s :: rest :=
  settleWith_lexemes r.lexemes r.log

theorem settle_token (t : Token) (s : Span) (ls : List Lexeme) (log : List Diagnostic) :
    settle ⟨.token t s :: ls, log⟩ = ⟨.token t s :: ls, log⟩ := rfl

theorem settle_nil (log : List Diagnostic) : settle ⟨[], log⟩ = ⟨[], log⟩ := rfl

theorem settle_of_token {t : Token} {s : Span} {ls : List Lexeme}
    (h : r.lexemes = .token t s :: ls) : r.settle = r := by
  obtain ⟨rest, log⟩ := r
  obtain rfl : rest = .token t s :: ls := h
  exact settle_token t s ls log

theorem settle_of_nil (h : r.lexemes = []) : r.settle = r := by
  obtain ⟨rest, log⟩ := r
  obtain rfl : rest = [] := h
  exact settle_nil log

/-- What is settled stays as it is. -/
theorem settle_settle (r : Remainder) : r.settle.settle = r.settle := by
  rcases settle_lexemes r with h | ⟨t, s, rest, h⟩
  · exact settle_of_nil h
  · exact settle_of_token h

theorem length_lt_of_settle {l : Lexeme} {ls : List Lexeme} (h : r.settle.lexemes = l :: ls) :
    ls.length < r.lexemes.length := by
  have hle := (reads_settle [] r).length_le
  rw [h, List.length_cons] at hle
  exact hle

/-- The token that comes next. -/
def next? (r : Remainder) : Option Token :=
  match r.settle.lexemes with
  | .token t _ :: _ => some t
  | _ => none

theorem next?_eq_none_iff (r : Remainder) : r.next? = none ↔ r.settle.lexemes = [] := by
  unfold next?
  rcases settle_lexemes r with h | ⟨t, s, rest, h⟩
  · simp [h]
  · simp [h]

theorem next?_eq_some_iff (r : Remainder) (t : Token) :
    r.next? = some t ↔ ∃ s rest, r.settle.lexemes = .token t s :: rest := by
  unfold next?
  rcases settle_lexemes r with h | ⟨t, s, rest, h⟩
  · simp [h]
  · simp [h]

/-- The keyword that comes next, if it is one. -/
def keyword? (r : Remainder) : Option Keyword :=
  match r.next? with
  | some (.ident word) => Keyword.ofText? word
  | _ => none

theorem settle_ne_nil_of_keyword? (r : Remainder) {k : Keyword} (h : r.keyword? = some k) :
    r.settle.lexemes ≠ [] := by
  intro hnil
  rw [keyword?, (next?_eq_none_iff r).mpr hnil] at h
  cases h

end Remainder

namespace Parser

open Remainder

variable {α β : Type} {n m : Nat} {strict : Bool} {env : Surroundings} {r r₁ : Remainder}

/-! ### Orderly outcomes -/

/-- The outcome of a parser that keeps the order, as the head of this file tells it. -/
inductive Ordered (n : Nat) (strict : Bool) (env : Surroundings) (r : Remainder) :
    Outcome α → Prop
  | done {a : α} {r' : Remainder} (reads : Reads [] r r' [])
      (shorter : strict = true → r'.lexemes.length < r.lexemes.length) :
      Ordered n strict env r (.done a r')
  /-- Something stands there that was not expected. -/
  | unexpected {mid : Remainder} {e : Expectation} {t : Token} {s : Span} {ls : List Lexeme}
      (reads : Reads [] r mid []) (token : mid.lexemes = .token t s :: ls) :
      Ordered n strict env r
        (.halted .mismatch ⟨mid.lexemes, .unexpectedToken e t s :: mid.log⟩)
  /-- The source ends within a body, which the body reports. -/
  | silent {opened : List Span} {mid : Remainder} (inBody : env.inBody = true)
      (reads : Reads [] r mid opened) (ends : mid.lexemes = []) :
      Ordered n strict env r (.halted .mismatch mid)
  /-- The source ends within a statement. -/
  | eof {opened : List Span} {mid : Remainder} {e : Expectation} {s : Span}
      (inBody : env.inBody = false) (reads : Reads [] r mid opened) (ends : mid.lexemes = []) :
      Ordered n strict env r (.halted .mismatch ⟨[], .unexpectedEof e s :: mid.log⟩)
  /-- The source ends and some body is open, whose brace is among the open ones. -/
  | unclosed {opened : List Span} {mid : Remainder} {kind : BodyKind} {s : Span}
      (reads : Reads [] r mid opened) (ends : mid.lexemes = []) (mem : s ∈ opened) :
      Ordered n strict env r (.halted .unclosed ⟨[], .unterminatedBody kind s :: mid.log⟩)
  | exhausted {r' : Remainder} (budget : n < r.lexemes.length) :
      Ordered n strict env r (.halted .exhausted r')

namespace Ordered

/-- A halt does not depend on the type of the value that is missing. -/
theorem halted {h : Halt} (hp : Ordered (α := α) n strict env r (.halted h r₁)) (strict' : Bool) :
    Ordered (α := β) n strict' env r (.halted h r₁) := by
  cases hp with
  | unexpected reads token => exact .unexpected reads token
  | silent inBody reads ends => exact .silent inBody reads ends
  | eof inBody reads ends => exact .eof inBody reads ends
  | unclosed reads ends mem => exact .unclosed reads ends mem
  | exhausted budget => exact .exhausted budget

/-- What was read before an outcome belongs to it. -/
theorem prepend {o : Outcome α} (hr : Reads [] r r₁ []) (ho : Ordered n strict env r₁ o) :
    Ordered n strict env r o := by
  have hle := hr.length_le
  cases ho with
  | done reads shorter => exact .done (hr.trans reads) fun hs => by have := shorter hs; omega
  | unexpected reads token => exact .unexpected (hr.trans reads) token
  | silent inBody reads ends => exact .silent inBody (hr.trans reads) ends
  | eof inBody reads ends => exact .eof inBody (hr.trans reads) ends
  | unclosed reads ends mem => exact .unclosed (hr.trans reads) ends mem
  | exhausted budget => exact .exhausted (by omega)

/-- If something was taken before, the outcome is strict and one more turn is there. -/
theorem advance {o : Outcome α} (hr : Reads [] r r₁ [])
    (hlt : r₁.lexemes.length < r.lexemes.length) (hn : n ≤ m + 1)
    (ho : Ordered m false env r₁ o) : Ordered n true env r o := by
  cases ho with
  | done reads shorter =>
      have hle := reads.length_le
      exact .done (hr.trans reads) fun _ => by omega
  | unexpected reads token => exact .unexpected (hr.trans reads) token
  | silent inBody reads ends => exact .silent inBody (hr.trans reads) ends
  | eof inBody reads ends => exact .eof inBody (hr.trans reads) ends
  | unclosed reads ends mem => exact .unclosed (hr.trans reads) ends mem
  | exhausted budget => exact .exhausted (by omega)

theorem relax {o : Outcome α} (ho : Ordered n true env r o) : Ordered n strict env r o := by
  cases ho with
  | done reads shorter => exact .done reads fun _ => shorter rfl
  | unexpected reads token => exact .unexpected reads token
  | silent inBody reads ends => exact .silent inBody reads ends
  | eof inBody reads ends => exact .eof inBody reads ends
  | unclosed reads ends mem => exact .unclosed reads ends mem
  | exhausted budget => exact .exhausted budget

/-- What is made of the value does not matter. -/
theorem map {p : Parser α} (f : α → β) (ho : Ordered n strict env r (p env r)) :
    Ordered n strict env r ((f <$> p) env r) := by
  rw [← bind_pure_comp, bind_run]
  cases hrun : p env r with
  | done a r₁ =>
      rw [hrun] at ho
      cases ho with
      | done reads shorter => exact .done reads shorter
  | halted reason r₁ =>
      rw [hrun] at ho
      exact ho.halted strict

end Ordered

/-- A parser that keeps the order wherever it starts. -/
def Orderly (n : Nat) (strict : Bool) (p : Parser α) : Prop :=
  ∀ env r, Ordered n strict env r (p env r)

/-! ### How the primitives run -/

theorem bind_done {p : Parser α} {f : α → Parser β} {a : α} (h : p env r = .done a r₁) :
    (p >>= f) env r = f a env r₁ := by
  rw [bind_run, h]

theorem done_of_bind {p : Parser α} {f : α → Parser β} {b : β}
    (h : (p >>= f) env r = .done b r₁) :
    ∃ a mid, p env r = .done a mid ∧ f a env mid = .done b r₁ := by
  rw [bind_run] at h
  cases hp : p env r with
  | done a mid =>
      rw [hp] at h
      exact ⟨a, mid, rfl, h⟩
  | halted reason mid =>
      rw [hp] at h
      cases h

theorem peek_run (env : Surroundings) (r : Remainder) : peek env r = .done r.next? r.settle := by
  unfold peek next?
  rcases settle_lexemes r with h | ⟨t, s, ls, h⟩
  · simp [h]
  · simp [h]

theorem peekKeyword_run (env : Surroundings) (r : Remainder) :
    peekKeyword env r = .done r.keyword? r.settle := by
  rw [peekKeyword, bind_done (peek_run env r), keyword?]
  cases r.next? with
  | none => rfl
  | some t => cases t <;> rfl

theorem accept?_run_nil (want : Token → Span → Option α) (env : Surroundings)
    (h : r.settle.lexemes = []) : accept? want env r = .done none r.settle := by
  unfold accept?
  simp [h]

theorem accept?_run_none {want : Token → Span → Option α} {t : Token} {s : Span}
    {ls : List Lexeme} (env : Surroundings) (h : r.settle.lexemes = .token t s :: ls)
    (hw : want t s = none) : accept? want env r = .done none r.settle := by
  unfold accept?
  simp [h, hw]

theorem accept?_run_some {want : Token → Span → Option α} {t : Token} {s : Span}
    {ls : List Lexeme} {a : α} (env : Surroundings) (h : r.settle.lexemes = .token t s :: ls)
    (hw : want t s = some a) : accept? want env r = .done (some a) ⟨ls, r.settle.log⟩ := by
  unfold accept?
  simp [h, hw]

theorem unexpected_run_token {t : Token} {s : Span} {ls : List Lexeme} (e : Expectation)
    (env : Surroundings) (h : r.settle.lexemes = .token t s :: ls) :
    (unexpected e : Parser α) env r =
      .halted .mismatch ⟨r.settle.lexemes, .unexpectedToken e t s :: r.settle.log⟩ := by
  unfold unexpected
  simp [h]

theorem unexpected_run_nil (e : Expectation) (env : Surroundings)
    (h : r.settle.lexemes = []) :
    (unexpected e : Parser α) env r =
      if env.inBody = true then .halted .mismatch r.settle
      else .halted .mismatch
        ⟨[], .unexpectedEof e (Span.point (Utf8.size env.source)) :: r.settle.log⟩ := by
  unfold unexpected
  simp [h]

theorem expectMark_eq (p : Punctuation) :
    expectMark p = require (.mark p) fun t s => if t = .mark p then some s else none := by
  refine congrArg (acceptMark? p >>= ·) (funext fun found => ?_)
  cases found <;> rfl

theorem expectKeyword_eq (k : Keyword) :
    expectKeyword k = require (.keyword k) fun t s => if t = .ident k.text then some s else none := by
  refine congrArg (acceptKeyword? k >>= ·) (funext fun found => ?_)
  cases found <;> rfl

theorem expectMark_run {p : Punctuation} {s : Span} {ls : List Lexeme} (env : Surroundings)
    (h : r.settle.lexemes = .token (.mark p) s :: ls) :
    expectMark p env r = .done s ⟨ls, r.settle.log⟩ := by
  rw [expectMark_eq, require, bind_run, accept?_run_some env h (if_pos rfl)]
  rfl

/-- Taking a token that is no brace. -/
theorem reads_accept {want : Token → Span → Option α} {t : Token} {s : Span} {ls : List Lexeme}
    {a : α} (hl : ∀ s, want (.mark .leftBrace) s = none)
    (hr : ∀ s, want (.mark .rightBrace) s = none) (h : r.settle.lexemes = .token t s :: ls)
    (hw : want t s = some a) : Reads [] r ⟨ls, r.settle.log⟩ [] := by
  have hplain : (Lexeme.token t s).isBrace = false := by
    refine isBrace_token ?_ ?_ s
    · rintro rfl
      rw [hl] at hw
      cases hw
    · rintro rfl
      rw [hr] at hw
      cases hw
  have he : r.settle = ⟨.token t s :: ls, r.settle.log⟩ := by rw [← h]
  have hstep : Reads [] r.settle ⟨ls, r.settle.log⟩ [] := by
    rw [he]
    exact .lexeme _ (.plain hplain [])
  exact (reads_settle [] r).trans hstep

namespace Orderly

/-! ### Sequences -/

theorem relax {p : Parser α} (hp : Orderly n true p) : Orderly n strict p :=
  fun env r => (hp env r).relax

theorem pure (a : α) : Orderly n false (Pure.pure a : Parser α) :=
  fun _ r => .done (.refl [] r) (by simp)

/-- A sequence is as strict as its second part. -/
theorem bind {p : Parser α} {f : α → Parser β} (hp : Orderly n false p)
    (hf : ∀ a, Orderly n strict (f a)) : Orderly n strict (p >>= f) := by
  intro env r
  rw [bind_run]
  have h := hp env r
  cases ho : p env r with
  | done a r₁ =>
      rw [ho] at h
      cases h with
      | done reads shorter => exact (hf a env r₁).prepend reads
  | halted reason r₁ =>
      rw [ho] at h
      exact h.halted strict

/-- A sequence whose first part is strict is strict, and gains a turn by it. -/
theorem bindStrict {p : Parser α} {f : α → Parser β} (hn : n ≤ m + 1) (hp : Orderly n true p)
    (hf : ∀ a, Orderly m false (f a)) : Orderly n true (p >>= f) := by
  intro env r
  rw [bind_run]
  have h := hp env r
  cases ho : p env r with
  | done a r₁ =>
      rw [ho] at h
      cases h with
      | done reads shorter => exact (hf a env r₁).advance reads (shorter rfl) hn
  | halted reason r₁ =>
      rw [ho] at h
      exact h.halted true

theorem map {p : Parser α} (f : α → β) (hp : Orderly n strict p) : Orderly n strict (f <$> p) :=
  fun env r => (hp env r).map f

/-! ### Single tokens -/

theorem peek : Orderly n false peek := by
  intro env r
  rw [peek_run]
  exact .done (reads_settle [] r) (by simp)

theorem report {d : Diagnostic} (hd : d.isAtEnd = false) : Orderly n false (report d) :=
  fun _ r => .done (.report hd [] r.lexemes r.log) (by simp)

theorem unexpected (e : Expectation) : Orderly n strict (unexpected e : Parser α) := by
  intro env r
  have hr := reads_settle [] r
  rcases settle_lexemes r with h | ⟨t, s, ls, h⟩
  · rw [unexpected_run_nil e env h]
    by_cases hb : env.inBody = true
    · rw [if_pos hb]
      exact .silent hb hr h
    · rw [if_neg hb]
      exact .eof (by simpa using hb) hr h
  · rw [unexpected_run_token e env h]
    exact .unexpected hr h

/-- A wanted token that is no brace. -/
theorem accept? {want : Token → Span → Option α} (hl : ∀ s, want (.mark .leftBrace) s = none)
    (hr : ∀ s, want (.mark .rightBrace) s = none) : Orderly n false (accept? want) := by
  intro env r
  rcases settle_lexemes r with h | ⟨t, s, ls, h⟩
  · rw [accept?_run_nil want env h]
    exact .done (reads_settle [] r) (by simp)
  · cases hw : want t s with
    | none =>
        rw [accept?_run_none env h hw]
        exact .done (reads_settle [] r) (by simp)
    | some a =>
        rw [accept?_run_some env h hw]
        exact .done (reads_accept hl hr h hw) (by simp)

theorem require {e : Expectation} {want : Token → Span → Option α}
    (hl : ∀ s, want (.mark .leftBrace) s = none) (hr : ∀ s, want (.mark .rightBrace) s = none) :
    Orderly n true (require e want) := by
  intro env r
  rw [Parser.require, bind_run]
  rcases settle_lexemes r with h | ⟨t, s, ls, h⟩
  · rw [accept?_run_nil want env h]
    exact ((unexpected e) env r.settle).prepend (reads_settle [] r)
  · cases hw : want t s with
    | none =>
        rw [accept?_run_none env h hw]
        exact ((unexpected e) env r.settle).prepend (reads_settle [] r)
    | some a =>
        rw [accept?_run_some env h hw]
        exact .done (reads_accept hl hr h hw) fun _ => length_lt_of_settle h

/-- A token that may be missing, and a sequel that takes something if it is. -/
theorem acceptStrict {want : Token → Span → Option α} {f : Option α → Parser β}
    (hl : ∀ s, want (.mark .leftBrace) s = none) (hr : ∀ s, want (.mark .rightBrace) s = none)
    (hnone : Orderly n true (f none)) (hsome : ∀ a, Orderly n false (f (some a))) :
    Orderly n true (Parser.accept? want >>= f) := by
  intro env r
  have hset := reads_settle [] r
  rcases settle_lexemes r with h | ⟨t, s, ls, h⟩
  · rw [bind_done (accept?_run_nil want env h)]
    exact (hnone env r.settle).prepend hset
  · cases hw : want t s with
    | none =>
        rw [bind_done (accept?_run_none env h hw)]
        exact (hnone env r.settle).prepend hset
    | some a =>
        rw [bind_done (accept?_run_some env h hw)]
        exact (hsome a env _).advance (reads_accept hl hr h hw) (length_lt_of_settle h)
          (Nat.le_succ n)

theorem acceptMark? {p : Punctuation} (hl : p ≠ .leftBrace) (hr : p ≠ .rightBrace) :
    Orderly n false (acceptMark? p) := by
  unfold Parser.acceptMark?
  refine accept? (fun s => if_neg ?_) (fun s => if_neg ?_)
  · exact fun h => hl (Token.mark.inj h).symm
  · exact fun h => hr (Token.mark.inj h).symm

theorem expectMark {p : Punctuation} (hl : p ≠ .leftBrace) (hr : p ≠ .rightBrace) :
    Orderly n true (expectMark p) := by
  rw [expectMark_eq]
  refine require (fun s => if_neg ?_) (fun s => if_neg ?_)
  · exact fun h => hl (Token.mark.inj h).symm
  · exact fun h => hr (Token.mark.inj h).symm

theorem acceptKeyword? (k : Keyword) : Orderly n false (acceptKeyword? k) :=
  accept? (fun _ => if_neg Token.noConfusion) (fun _ => if_neg Token.noConfusion)

theorem expectKeyword (k : Keyword) : Orderly n true (expectKeyword k) := by
  rw [expectKeyword_eq]
  exact require (fun _ => if_neg Token.noConfusion) (fun _ => if_neg Token.noConfusion)

theorem peekKeyword : Orderly n false peekKeyword := by
  unfold Parser.peekKeyword
  refine bind peek fun t? => ?_
  split
  · exact pure _
  · exact pure _

end Orderly

/-- What a keyword decides runs where something is left, if there was a keyword. -/
theorem Ordered.dispatch {f : Option Keyword → Parser α}
    (hf : ∀ k? p, f k? = p → (k? ≠ none → r.settle.lexemes ≠ []) →
      Ordered n strict env r.settle (p env r.settle)) :
    Ordered n strict env r ((peekKeyword >>= f) env r) := by
  rw [bind_done (peekKeyword_run env r)]
  refine (hf _ _ rfl fun hk => ?_).prepend (reads_settle [] r)
  obtain ⟨k, hk⟩ := Option.ne_none_iff_exists'.mp hk
  exact settle_ne_nil_of_keyword? r hk

/-! ### Loops -/

/-- Every turn but the last takes a lexeme. -/
def Progressive (turn : Parser (Turn α)) : Prop :=
  ∀ env r t r', turn env r = .done t r' → t = .stop ∨ r'.lexemes.length < r.lexemes.length

namespace Progressive

theorem stop : Progressive (Pure.pure .stop : Parser (Turn α)) := by
  intro env r t r' h
  cases h
  exact Or.inl rfl

theorem unexpected (e : Expectation) : Progressive (unexpected e : Parser (Turn α)) := by
  intro env r t r' h
  have hu : Orderly 0 true (Parser.unexpected e : Parser (Turn α)) := .unexpected e
  have ho := hu env r
  rw [h] at ho
  cases ho with
  | done reads shorter => exact Or.inr (shorter rfl)

/-- A turn that yields what a strict parser gives. -/
theorem yield {p : Parser α} (hp : Orderly n true p) :
    Progressive (p >>= fun a => Pure.pure (.yield a)) := by
  intro env r t r' h
  have ho := hp env r
  rw [bind_run] at h
  cases hr : p env r with
  | done a r₁ =>
      rw [hr] at h ho
      cases h
      cases ho with
      | done reads shorter => exact Or.inr (shorter rfl)
  | halted reason r₁ =>
      rw [hr] at h
      cases h

theorem bind {p : Parser β} {f : β → Parser (Turn α)} (hp : Orderly n false p)
    (hf : ∀ b, Progressive (f b)) : Progressive (p >>= f) := by
  intro env r t r' h
  have ho := hp env r
  rw [bind_run] at h
  cases hr : p env r with
  | done b r₁ =>
      rw [hr] at h ho
      cases ho with
      | done reads shorter =>
          have hle := reads.length_le
          rcases hf b env r₁ t r' h with hs | hlt
          · exact Or.inl hs
          · exact Or.inr (by omega)
  | halted reason r₁ =>
      rw [hr] at h
      cases h

end Progressive

theorem collect_ordered {turn : Parser (Turn α)} (ht : Orderly n false turn)
    (hp : Progressive turn) (env : Surroundings) (budget : List Lexeme) :
    ∀ r, r.lexemes.length ≤ budget.length →
      Ordered n false env r (collect turn budget env r) := by
  -- On the budget: a turn that does not stop is progressive and uses up a lexeme.
  induction budget with
  | nil =>
      intro r hr
      have ho := ht env r
      rw [collect, bind_run]
      cases hrun : turn env r with
      | halted reason r₁ =>
          rw [hrun] at ho
          exact ho.halted false
      | done t r₁ =>
          rw [hrun] at ho
          cases ho with
          | done reads shorter =>
              rcases hp env r t r₁ hrun with rfl | hlt
              · exact .done reads (by simp)
              · rw [List.length_nil] at hr
                omega
  | cons l budget ih =>
      intro r hr
      have ho := ht env r
      rw [collect, bind_run]
      cases hrun : turn env r with
      | halted reason r₁ =>
          rw [hrun] at ho
          exact ho.halted false
      | done t r₁ =>
          rw [hrun] at ho
          cases ho with
          | done reads shorter =>
              have hprog := hp env r t r₁ hrun
              rw [List.length_cons] at hr
              cases t with
              | stop => exact .done reads (by simp)
              | skip =>
                  have hlt : r₁.lexemes.length < r.lexemes.length := by simpa using hprog
                  exact (ih r₁ (by omega)).prepend reads
              | yield a =>
                  have hlt : r₁.lexemes.length < r.lexemes.length := by simpa using hprog
                  have hrest := ih r₁ (by omega)
                  refine Ordered.prepend reads ?_
                  simp only [bind_run]
                  cases hc : collect turn budget env r₁ with
                  | done as r₂ =>
                      rw [hc] at hrest
                      cases hrest with
                      | done reads' shorter' => exact .done reads' (by simp)
                  | halted reason r₂ =>
                      rw [hc] at hrest
                      exact hrest.halted false

theorem Orderly.many {turn : Parser (Turn α)} (ht : Orderly n false turn)
    (hp : Progressive turn) : Orderly n false (many turn) :=
  fun env r => collect_ordered ht hp env r.lexemes r (Nat.le_refl _)

end Parser

end ProtoSchema
