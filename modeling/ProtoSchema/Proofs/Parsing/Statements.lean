/-
The turns of the loop over the statements of a file.

Between statements no body is open, and a turn looks at the next token first.  Nothing is
left, an empty statement is passed, a brace that closes nothing is reported and passed
alone, and everything else is for `statement` to parse.  One equation for each of these
is all that is needed of the loop.
-/
import ProtoSchema.Proofs.Parsing.Productions

namespace ProtoSchema

/-- A statement is placed behind those of its kind. -/
theorem forall_mem_snoc {α : Type} {P : α → Prop} {as : List α} {a : α} (has : ∀ b ∈ as, P b)
    (ha : P a) : ∀ b ∈ as ++ [a], P b :=
  List.forall_mem_append.mpr ⟨has, List.forall_mem_singleton.mpr ha⟩

/-- The statements of a file behind the one about the dialect, in the order of printing. -/
def File.statements (f : File) : List Statement :=
  f.package.toList.map .package ++ f.imports.map .dependency ++ f.options.map .option ++
    f.messages.map .message ++ f.enums.map .enum ++ f.extendBlocks.map .extend ++
    f.services.map .service

/-- What is wrong with the place of a statement is structural. -/
theorem File.category_place (file : File) (first : Bool) (st : Statement) :
    ∀ d ∈ (file.place first st).2, d.category = .structural := by
  intro d hd
  unfold place at hd
  split at hd
  · split at hd
    · obtain rfl := List.mem_singleton.mp hd
      rfl
    · split at hd
      · cases hd
      · obtain rfl := List.mem_singleton.mp hd
        rfl
  · split at hd
    · obtain rfl := List.mem_singleton.mp hd
      rfl
    · cases hd
  all_goals cases hd

namespace Parser

open Remainder

variable {env : Surroundings} {r : Remainder} {draft : Draft} {s : Span} {ls : List Lexeme}

theorem reportAll_run (ds : List Diagnostic) (env : Surroundings) :
    ∀ r : Remainder, reportAll ds env r = .done () ⟨r.lexemes, ds.reverse ++ r.log⟩ := by
  induction ds with
  | nil => intro r; rfl
  | cons d ds ih =>
      intro r
      have hstep : reportAll (d :: ds) env r = reportAll ds env ⟨r.lexemes, d :: r.log⟩ := rfl
      rw [hstep, ih, List.reverse_cons, List.append_assoc]
      rfl

theorem acceptMark?_run {p : Punctuation} (env : Surroundings)
    (h : r.settle.lexemes = .token (.mark p) s :: ls) :
    acceptMark? p env r = .done (some s) ⟨ls, r.settle.log⟩ :=
  accept?_run_some env h (if_pos rfl)

theorem nextStatement_nil (h : r.settle.lexemes = []) :
    nextStatement draft env r = .done none r.settle := by
  have hn : r.next? = none := (next?_eq_none_iff r).mpr h
  rw [nextStatement, bind_done (peek_run env r), hn]
  rfl

theorem nextStatement_semicolon (h : r.settle.lexemes = .token (.mark .semicolon) s :: ls) :
    nextStatement draft env r = .done (some draft) ⟨ls, r.settle.log⟩ := by
  have hn : r.next? = some (.mark .semicolon) := (next?_eq_some_iff r _).mpr ⟨s, ls, h⟩
  have hset : r.settle.settle.lexemes = .token (.mark .semicolon) s :: ls := by
    rw [settle_settle, h]
  rw [nextStatement, bind_done (peek_run env r), hn]
  simp only [bind_done (acceptMark?_run env hset), settle_settle]
  rfl

/-- No statement starts with a closing brace. -/
theorem statement_rightBrace (h : r.settle.lexemes = .token (.mark .rightBrace) s :: ls) :
    statement env r = .halted .mismatch
      ⟨r.settle.lexemes, .unexpectedToken .statement (.mark .rightBrace) s :: r.settle.log⟩ := by
  have hn : r.next? = some (.mark .rightBrace) := (next?_eq_some_iff r _).mpr ⟨s, ls, h⟩
  have hk : r.keyword? = none := by rw [keyword?, hn]
  have hset : r.settle.settle.lexemes = .token (.mark .rightBrace) s :: ls := by
    rw [settle_settle, h]
  rw [statement, bind_done (peekKeyword_run env r), hk]
  exact (unexpected_run_token .statement env hset).trans (by rw [settle_settle])

theorem nextStatement_rightBrace (h : r.settle.lexemes = .token (.mark .rightBrace) s :: ls) :
    nextStatement draft env r = .done (some { draft with first := false })
      ⟨ls, .unexpectedToken .statement (.mark .rightBrace) s :: r.settle.log⟩ := by
  have hn : r.next? = some (.mark .rightBrace) := (next?_eq_some_iff r _).mpr ⟨s, ls, h⟩
  have hset : r.settle.settle.lexemes = .token (.mark .rightBrace) s :: ls := by
    rw [settle_settle, h]
  have hrun : statement env r.settle = _ := statement_rightBrace hset
  have hmark (log : List Diagnostic) :
      acceptMark? .rightBrace env ⟨.token (.mark .rightBrace) s :: ls, log⟩ =
        .done (some s) ⟨ls, log⟩ :=
    acceptMark?_run env rfl
  rw [settle_settle, h] at hrun
  rw [nextStatement, bind_done (peek_run env r), hn]
  simp only [bind_run, attempt, hrun, if_true, hmark]
  rfl

theorem nextStatement_statement {t : Token} (h : r.settle.lexemes = .token t s :: ls)
    (hs : t ≠ .mark .semicolon) (hr : t ≠ .mark .rightBrace) :
    nextStatement draft env r =
      match statement env r.settle with
      | .done st r' =>
        .done (some ⟨(draft.file.place draft.first st).1, false⟩)
          ⟨r'.lexemes, (draft.file.place draft.first st).2.reverse ++ r'.log⟩
      | .halted .mismatch r' =>
        .done (some { draft with first := false }) (skipStatement 0 r'.log r'.lexemes)
      | .halted reason r' => .halted reason r' := by
  have hn : r.next? = some t := (next?_eq_some_iff r t).mpr ⟨s, ls, h⟩
  rw [nextStatement, bind_done (peek_run env r), hn]
  simp only [bind_run, attempt]
  cases statement env r.settle with
  | done st r' =>
      simp only [bind_run, reportAll_run]
      rfl
  | halted reason r' =>
      cases reason with
      | mismatch =>
          simp only [if_neg hr]
          rfl
      | unclosed => rfl
      | exhausted => rfl

/-- At the end of the source the loop has nothing more to do. -/
theorem evolve_nextStatement_nil (h : r.lexemes = []) (budget : List Lexeme) (draft : Draft) :
    evolve nextStatement budget draft env r = .done draft r := by
  have hset : r.settle = r := settle_of_nil h
  have hstep : nextStatement draft env r = .done none r := by
    rw [nextStatement_nil (hset.symm ▸ h), hset]
  cases budget with
  | nil => rw [evolve, bind_done hstep]; rfl
  | cons l budget => rw [evolve, bind_done hstep]; rfl

/-- A turn that goes on. -/
theorem evolve_nextStatement_some {draft' : Draft} {r' : Remainder} {l : Lexeme}
    {budget : List Lexeme} (h : nextStatement draft env r = .done (some draft') r') :
    evolve nextStatement (l :: budget) draft env r =
      evolve nextStatement budget draft' env r' := by
  rw [evolve, bind_done h]

/-- Turns of the loop that lead from one draft to another. -/
def Passes (env : Surroundings) (draft : Draft) (ls : List Lexeme) (log : List Diagnostic)
    (draft' : Draft) (rest : List Lexeme) (log' : List Diagnostic) : Prop :=
  ∀ budget : List Lexeme, ls.length ≤ budget.length → ∃ budget' : List Lexeme,
    rest.length ≤ budget'.length ∧
      evolve nextStatement budget draft env ⟨ls, log⟩ =
        evolve nextStatement budget' draft' env ⟨rest, log'⟩

namespace Passes

variable {env : Surroundings} {draft draft₁ draft₂ : Draft} {ls mid rest : List Lexeme}
  {log log₁ log₂ : List Diagnostic}

theorem refl (draft : Draft) (ls : List Lexeme) (log : List Diagnostic) :
    Passes env draft ls log draft ls log := fun budget hlen => ⟨budget, hlen, rfl⟩

theorem trans (h₁ : Passes env draft ls log draft₁ mid log₁)
    (h₂ : Passes env draft₁ mid log₁ draft₂ rest log₂) :
    Passes env draft ls log draft₂ rest log₂ := by
  intro budget hlen
  obtain ⟨budget₁, hlen₁, hstep₁⟩ := h₁ budget hlen
  obtain ⟨budget₂, hlen₂, hstep₂⟩ := h₂ budget₁ hlen₁
  exact ⟨budget₂, hlen₂, hstep₁.trans hstep₂⟩

theorem step (h : nextStatement draft env ⟨ls, log⟩ = .done (some draft₁) ⟨rest, log₁⟩)
    (hlt : rest.length < ls.length) : Passes env draft ls log draft₁ rest log₁ := by
  intro budget hlen
  cases budget with
  | nil =>
      rw [List.length_nil] at hlen
      omega
  | cons l budget =>
      rw [List.length_cons] at hlen
      exact ⟨budget, by omega, evolve_nextStatement_some h⟩

/-- At the end of the source the loop stops. -/
theorem toEnd (h : Passes env draft ls log draft₁ [] log₁) :
    iterate nextStatement draft env ⟨ls, log⟩ = .done draft₁ ⟨[], log₁⟩ := by
  obtain ⟨budget, -, hrun⟩ := h ls (Nat.le_refl _)
  exact hrun.trans (evolve_nextStatement_nil rfl budget draft₁)

end Passes

end Parser

end ProtoSchema
