/-
Parsers do not look back at the log.

What was reported before stays below what a parser reports, and has no influence on it.  So a
parser can be run with an empty log, and its outcome be put onto the log that there is.  The
property is hereditary: settling and skipping only ever add to the log, and everything else is
made of them.

`Takes` is what remains of a parser without its log: a relation between the lexemes that there
are, a value, and the lexemes that are left.  What a sequence takes, its parts take one after the
other, and a single token is taken as the next one.
-/
import ProtoSchema.Proofs.Grammar.Repetition
import ProtoSchema.Proofs.Parsing.Hereditary

namespace ProtoSchema

namespace Remainder

/-- What is left, with diagnostics that were reported before. -/
def onto (log : List Diagnostic) (r : Remainder) : Remainder := ⟨r.lexemes, r.log ++ log⟩

theorem settleWith_onto (ls : List Lexeme) :
    ∀ new log, settleWith (new ++ log) ls = (settleWith new ls).onto log := by
  induction ls with
  | nil => intro new log; rfl
  | cons l ls ih =>
      intro new log
      cases l with
      | token t s => rfl
      | illegal c s => exact ih (.invalidToken c s :: new) log
      | note d => exact ih (d :: new) log

theorem settle_onto (log : List Diagnostic) (r : Remainder) :
    (r.onto log).settle = r.settle.onto log := settleWith_onto r.lexemes r.log log

end Remainder

/-- An outcome, with diagnostics that were reported before. -/
def Outcome.onto {α : Type} (log : List Diagnostic) : Outcome α → Outcome α
  | done a r => done a (r.onto log)
  | halted reason r => halted reason (r.onto log)

namespace Parser

open Remainder

variable {α β : Type}

/-- A parser on which the log has no influence. -/
def Oblivious (p : Parser α) : Prop :=
  ∀ env r log, p env (r.onto log) = (p env r).onto log

namespace Oblivious

theorem bind {p : Parser α} {f : α → Parser β} (hp : Oblivious p) (hf : ∀ a, Oblivious (f a)) :
    Oblivious (p >>= f) := by
  intro env r log
  rw [bind_run, bind_run, hp env r log]
  cases p env r with
  | done a r' => exact hf a env r' log
  | halted reason r' => rfl

theorem peek : Oblivious peek := by
  intro env r log
  unfold Parser.peek
  simp only [settle_onto]
  generalize r.settle = r'
  obtain ⟨ls, log'⟩ := r'
  unfold onto
  cases ls with
  | nil => rfl
  | cons l ls => cases l <;> rfl

theorem accept? (want : Token → Span → Option α) : Oblivious (accept? want) := by
  intro env r log
  unfold Parser.accept?
  simp only [settle_onto]
  generalize r.settle = r'
  obtain ⟨ls, log'⟩ := r'
  unfold onto
  cases ls with
  | nil => rfl
  | cons l ls =>
      cases l with
      | token t s =>
          dsimp only
          cases want t s <;> rfl
      | _ => rfl

theorem unexpected (e : Expectation) : Oblivious (unexpected e : Parser α) := by
  intro env r log
  unfold Parser.unexpected
  simp only [settle_onto]
  generalize r.settle = r'
  obtain ⟨ls, log'⟩ := r'
  unfold onto
  by_cases hb : env.inBody = true
  · cases ls with
    | nil => simp [hb, Outcome.onto, onto]
    | cons l ls => cases l <;> simp [hb, Outcome.onto, onto]
  · cases ls with
    | nil => simp [hb, Outcome.onto, onto]
    | cons l ls => cases l <;> simp [hb, Outcome.onto, onto]

theorem attempt {p : Parser α} (hp : Oblivious p) : Oblivious (attempt p) := by
  intro env r log
  unfold Parser.attempt
  rw [hp env r log]
  cases p env r with
  | done a r' => rfl
  | halted reason r' => cases reason <;> rfl

theorem skipStatement_onto (ls : List Lexeme) : ∀ depth new log,
    skipStatement depth (new ++ log) ls = (skipStatement depth new ls).onto log := by
  induction ls with
  | nil => intro depth new log; cases depth <;> rfl
  | cons l ls ih =>
      intro depth new log
      cases l with
      | note d => exact ih depth (d :: new) log
      | illegal c s => exact ih depth (.invalidToken c s :: new) log
      | token t s =>
          rw [skipStatement.eq_def, skipStatement.eq_def depth new]
          dsimp only
          -- Skipping looks at the tokens and the depth only, so both runs take the same branch.
          by_cases hleft : t = .mark .leftBrace
          · rw [if_pos hleft, if_pos hleft]
            exact ih _ new log
          rw [if_neg hleft, if_neg hleft]
          cases depth with
          | zero =>
              dsimp only
              by_cases hsemi : t = .mark .semicolon
              · rw [if_pos hsemi, if_pos hsemi]
                rfl
              rw [if_neg hsemi, if_neg hsemi]
              by_cases hright : t = .mark .rightBrace
              · rw [if_pos hright, if_pos hright]
                rfl
              rw [if_neg hright, if_neg hright]
              exact ih _ new log
          | succ depth =>
              dsimp only
              by_cases hright : t = .mark .rightBrace
              · rw [if_pos hright, if_pos hright]
                by_cases hzero : depth = 0
                · rw [if_pos hzero, if_pos hzero]
                  rfl
                · rw [if_neg hzero, if_neg hzero]
                  exact ih _ new log
              · rw [if_neg hright, if_neg hright]
                exact ih _ new log

theorem recover : Oblivious recover := fun _ r log =>
  congrArg (Outcome.done ()) (skipStatement_onto r.lexemes 0 r.log log)

theorem skipBlock_onto (ls : List Lexeme) : ∀ depth new log,
    skipBlock depth (new ++ log) ls =
      ((skipBlock depth new ls).1, (skipBlock depth new ls).2.onto log) := by
  induction ls with
  | nil => intro depth new log; cases depth <;> rfl
  | cons l ls ih =>
      intro depth new log
      cases l with
      | note d => exact ih depth (d :: new) log
      | illegal c s => exact ih depth (.invalidToken c s :: new) log
      | token t s =>
          rw [skipBlock.eq_def, skipBlock.eq_def depth new]
          dsimp only
          by_cases hleft : t = .mark .leftBrace
          · rw [if_pos hleft, if_pos hleft]
            exact ih _ new log
          rw [if_neg hleft, if_neg hleft]
          by_cases hright : t = .mark .rightBrace
          · rw [if_pos hright, if_pos hright]
            cases depth with
            | zero => rfl
            | succ depth => exact ih _ new log
          · rw [if_neg hright, if_neg hright]
            exact ih _ new log

theorem blockEnd : Oblivious blockEnd := by
  intro env r log
  have hlog : (r.onto log).log = r.log ++ log := rfl
  have hlexemes : (r.onto log).lexemes = r.lexemes := rfl
  rw [Parser.blockEnd, Parser.blockEnd, hlog, hlexemes, skipBlock_onto]
  rcases skipBlock 0 r.log r.lexemes with ⟨_ | s, rest⟩
  · exact unexpected _ env rest log
  · rfl

theorem hereditary : Hereditary fun _ => Oblivious where
  pure _ _ _ _ := rfl
  bind := bind
  halt _ _ _ _ := rfl
  report _ _ _ _ _ := rfl
  peek := peek
  accept? := accept?
  unexpected := unexpected
  budgeted hp env r log := hp r.lexemes env r log
  attempt := attempt
  inside hp env r log := hp { env with inBody := true } r log
  recover := recover
  blockEnd := blockEnd
  trimmedSource _ _ _ _ := rfl

/-- Without the log a parser halts at the same place. -/
theorem halted {p : Parser α} (hp : Oblivious p) {env : Surroundings} {ls : List Lexeme}
    {log : List Diagnostic} {reason : Halt} {r : Remainder}
    (h : p env ⟨ls, log⟩ = .halted reason r) :
    ∃ r₀, p env ⟨ls, []⟩ = .halted reason r₀ ∧ r = r₀.onto log := by
  have honto : p env ⟨ls, log⟩ = (p env ⟨ls, []⟩).onto log := hp env ⟨ls, []⟩ log
  rw [h] at honto
  cases hrun : p env ⟨ls, []⟩ with
  | done a r₀ =>
      rw [hrun] at honto
      cases honto
  | halted reason' r₀ =>
      rw [hrun] at honto
      cases honto
      exact ⟨r₀, rfl, rfl⟩

end Oblivious

/-! ### What a parser takes -/

variable {env : Surroundings} {ls mid rest : List Lexeme} {log : List Diagnostic} {a : α} {b : β}

/-- A parser makes a value of some lexemes and leaves others, whatever it reports. -/
def Takes (p : Parser α) (env : Surroundings) (ls : List Lexeme) (a : α) (rest : List Lexeme) :
    Prop :=
  ∃ log, p env ⟨ls, []⟩ = .done a ⟨rest, log⟩

namespace Takes

theorem unique {p : Parser α} {a' : α} {rest' : List Lexeme} (h : Takes p env ls a rest)
    (h' : Takes p env ls a' rest') : a' = a ∧ rest' = rest := by
  obtain ⟨log, h⟩ := h
  obtain ⟨log', h'⟩ := h'
  rw [h] at h'
  obtain ⟨rfl, hr⟩ := Outcome.done.inj h'
  exact ⟨rfl, (congrArg Remainder.lexemes hr).symm⟩

/-- What was reported before makes no difference. -/
theorem of_done {p : Parser α} (hp : Oblivious p) {log' : List Diagnostic}
    (h : p env ⟨ls, log⟩ = .done a ⟨rest, log'⟩) : Takes p env ls a rest := by
  have honto : p env ⟨ls, log⟩ = (p env ⟨ls, []⟩).onto log := hp env ⟨ls, []⟩ log
  rw [honto] at h
  cases hrun : p env ⟨ls, []⟩ with
  | done a' r =>
      rw [hrun] at h
      obtain ⟨rfl, hr⟩ := Outcome.done.inj h
      obtain rfl : r.lexemes = rest := congrArg Remainder.lexemes hr
      exact ⟨r.log, hrun⟩
  | halted reason r =>
      rw [hrun] at h
      cases h

theorem done {p : Parser α} (hp : Oblivious p) (h : Takes p env ls a rest)
    (log : List Diagnostic) : ∃ log', p env ⟨ls, log⟩ = .done a ⟨rest, log'⟩ := by
  obtain ⟨new, hrun⟩ := h
  have honto : p env ⟨ls, log⟩ = (p env ⟨ls, []⟩).onto log := hp env ⟨ls, []⟩ log
  exact ⟨new ++ log, by rw [honto, hrun]; rfl⟩

theorem bind_iff {p : Parser α} {f : α → Parser β} (hf : ∀ a, Oblivious (f a)) :
    Takes (p >>= f) env ls b rest ↔
      ∃ a mid, Takes p env ls a mid ∧ Takes (f a) env mid b rest := by
  constructor
  · rintro ⟨log, hrun⟩
    obtain ⟨a, ⟨mid, log'⟩, hp, hrest⟩ := done_of_bind hrun
    exact ⟨a, mid, ⟨log', hp⟩, of_done (hf a) hrest⟩
  · rintro ⟨a, mid, ⟨log, hp⟩, hrest⟩
    obtain ⟨log', hrun⟩ := hrest.done (hf a) log
    exact ⟨log', (bind_done hp).trans hrun⟩

theorem pure_iff {a' : α} : Takes (Pure.pure a) env ls a' rest ↔ a' = a ∧ rest = ls := by
  constructor
  · rintro ⟨log, hrun⟩
    obtain ⟨rfl, hr⟩ := Outcome.done.inj hrun
    exact ⟨rfl, (congrArg Remainder.lexemes hr).symm⟩
  · rintro ⟨rfl, rfl⟩
    exact ⟨[], rfl⟩

theorem map_iff {p : Parser α} {f : α → β} :
    Takes (f <$> p) env ls b rest ↔ ∃ a, Takes p env ls a rest ∧ f a = b := by
  rw [← bind_pure_comp, bind_iff fun a => Oblivious.hereditary.pure (f a)]
  simp only [pure_iff]
  constructor
  · rintro ⟨a, mid, hp, rfl, rfl⟩
    exact ⟨a, hp, rfl⟩
  · rintro ⟨a, hp, rfl⟩
    exact ⟨a, rest, hp, rfl, rfl⟩

end Takes

end Parser

/-! ### Single tokens -/

/-- Some lexemes from the next token on; what stands before it is passed. -/
def ahead (ls : List Lexeme) : List Lexeme := ls.dropWhile fun l => !l.isToken

theorem Remainder.lexemes_settleWith (ls : List Lexeme) :
    ∀ log, (settleWith log ls).lexemes = ahead ls := by
  induction ls with
  | nil => intro log; rfl
  | cons l ls ih =>
      intro log
      cases l with
      | token t s => rfl
      | illegal c s => exact ih (.invalidToken c s :: log)
      | note d => exact ih (d :: log)

theorem Remainder.lexemes_settle (r : Remainder) : r.settle.lexemes = ahead r.lexemes :=
  lexemes_settleWith r.lexemes r.log

theorem ahead_ahead (ls : List Lexeme) : ahead (ahead ls) = ahead ls := by
  induction ls with
  | nil => rfl
  | cons l ls ih =>
      cases l with
      | token t s => rfl
      | _ => exact ih

namespace Parser.Takes

open Remainder

variable {α : Type} {env : Surroundings} {ls rest : List Lexeme} {a : α}

theorem accept?_iff {want : Token → Span → Option α} :
    Takes (accept? want) env ls (some a) rest ↔
      ∃ t s, ahead ls = .token t s :: rest ∧ want t s = some a := by
  have hset : (settle ⟨ls, []⟩).lexemes = ahead ls := lexemes_settle _
  constructor
  · rintro ⟨log, hrun⟩
    rcases settle_lexemes ⟨ls, []⟩ with h | ⟨t, s, behind, h⟩
    · rw [accept?_run_nil want env h] at hrun
      cases hrun
    · cases hw : want t s with
      | none =>
          rw [accept?_run_none env h hw] at hrun
          cases hrun
      | some a' =>
          rw [accept?_run_some env h hw] at hrun
          cases hrun
          exact ⟨t, s, hset ▸ h, hw⟩
  · rintro ⟨t, s, h, hw⟩
    exact ⟨_, accept?_run_some env (hset.trans h) hw⟩

theorem accept?_none_iff {want : Token → Span → Option α} :
    Takes (accept? want) env ls none rest ↔
      rest = ahead ls ∧ ∀ t s behind, ahead ls = .token t s :: behind → want t s = none := by
  have hset : (settle ⟨ls, []⟩).lexemes = ahead ls := lexemes_settle _
  have hdone : (∃ log, Outcome.done (none : Option α) (settle ⟨ls, []⟩) = .done none ⟨rest, log⟩) ↔
      rest = ahead ls := by
    constructor
    · rintro ⟨log, hrun⟩
      rw [← hset, (Outcome.done.inj hrun).2]
    · rintro rfl
      exact ⟨(settle ⟨ls, []⟩).log, by rw [← hset]⟩
  unfold Takes
  rcases settle_lexemes ⟨ls, []⟩ with h | ⟨t, s, behind, h⟩
  · rw [accept?_run_nil want env h, hdone, ← hset, h]
    simp
  · cases hw : want t s with
    | none =>
        rw [accept?_run_none env h hw, hdone, ← hset, h]
        simp [hw]
    | some a =>
        rw [accept?_run_some env h hw, ← hset, h]
        simp [hw]

theorem not_unexpected {e : Expectation} : ¬ Takes (unexpected e) env ls a rest := by
  rintro ⟨log, hrun⟩
  rcases settle_lexemes ⟨ls, []⟩ with h | ⟨t, s, behind, h⟩
  · rw [unexpected_run_nil e env h] at hrun
    split at hrun <;> cases hrun
  · rw [unexpected_run_token e env h] at hrun
    cases hrun

theorem require_iff {e : Expectation} {want : Token → Span → Option α} :
    Takes (require e want) env ls a rest ↔
      ∃ t s, ahead ls = .token t s :: rest ∧ want t s = some a := by
  refine (bind_iff fun found => ?_).trans ⟨?_, ?_⟩
  · cases found with
    | none => exact Oblivious.unexpected e
    | some a => exact Oblivious.hereditary.pure a
  · rintro ⟨found, mid, haccept, hrest⟩
    cases found with
    | some a' =>
        obtain ⟨rfl, rfl⟩ := pure_iff.mp hrest
        exact accept?_iff.mp haccept
    | none => exact (not_unexpected hrest).elim
  · intro haccept
    exact ⟨some a, rest, accept?_iff.mpr haccept, pure_iff.mpr ⟨rfl, rfl⟩⟩

theorem expectMark_iff {p : Punctuation} {s : Span} :
    Takes (expectMark p) env ls s rest ↔ ahead ls = .token (.mark p) s :: rest := by
  rw [expectMark_eq, require_iff]
  constructor
  · rintro ⟨t, s', h, hw⟩
    by_cases ht : t = .mark p
    · rw [if_pos ht] at hw
      rw [h, ht, Option.some.inj hw]
    · rw [if_neg ht] at hw
      cases hw
  · intro h
    exact ⟨_, _, h, if_pos rfl⟩

theorem expectKeyword_iff {k : Keyword} {s : Span} :
    Takes (expectKeyword k) env ls s rest ↔ ahead ls = .token (.ident k.text) s :: rest := by
  rw [expectKeyword_eq, require_iff]
  constructor
  · rintro ⟨t, s', h, hw⟩
    by_cases ht : t = .ident k.text
    · rw [if_pos ht] at hw
      rw [h, ht, Option.some.inj hw]
    · rw [if_neg ht] at hw
      cases hw
  · intro h
    exact ⟨_, _, h, if_pos rfl⟩

theorem peek_iff {t? : Option Token} :
    Takes peek env ls t? rest ↔ t? = next? ⟨ls, []⟩ ∧ rest = ahead ls := by
  unfold Takes
  rw [peek_run]
  constructor
  · rintro ⟨log, hrun⟩
    obtain ⟨rfl, hr⟩ := Outcome.done.inj hrun
    exact ⟨rfl, (congrArg Remainder.lexemes hr).symm.trans (lexemes_settle _)⟩
  · rintro ⟨rfl, rfl⟩
    refine ⟨(settle ⟨ls, []⟩).log, ?_⟩
    rw [← lexemes_settle ⟨ls, []⟩]

theorem peekKeyword_iff {k? : Option Keyword} :
    Takes peekKeyword env ls k? rest ↔ k? = keyword? ⟨ls, []⟩ ∧ rest = ahead ls := by
  unfold Takes
  rw [peekKeyword_run]
  constructor
  · rintro ⟨log, hrun⟩
    obtain ⟨rfl, hr⟩ := Outcome.done.inj hrun
    exact ⟨rfl, (congrArg Remainder.lexemes hr).symm.trans (lexemes_settle _)⟩
  · rintro ⟨rfl, rfl⟩
    refine ⟨(settle ⟨ls, []⟩).log, ?_⟩
    rw [← lexemes_settle ⟨ls, []⟩]

/-! ### Loops -/

variable {turn : Parser (Turn α)} {mid : List Lexeme} {as : List α} {budget : List Lexeme}

/-- A loop ends with its first turn, or goes on behind it with a smaller budget. -/
theorem collect_cases (ht : Oblivious turn) (h : Takes (collect turn budget) env ls as rest) :
    Takes turn env ls .stop rest ∧ as = [] ∨
      ∃ l budget' mid, budget = l :: budget' ∧
        (Takes turn env ls .skip mid ∧ Takes (collect turn budget') env mid as rest ∨
          ∃ a as', as = a :: as' ∧ Takes turn env ls (.yield a) mid ∧
            Takes (collect turn budget') env mid as' rest) := by
  have hc (budget : List Lexeme) : Oblivious (collect turn budget) :=
    Oblivious.hereditary.collect ht budget
  obtain ⟨log, hrun⟩ := h
  cases budget with
  | nil =>
      unfold collect at hrun
      obtain ⟨t, ⟨mid, log'⟩, hturn, hrest⟩ := done_of_bind hrun
      cases t with
      | stop =>
          obtain ⟨rfl, hr⟩ := Outcome.done.inj hrest
          cases hr
          exact .inl ⟨⟨_, hturn⟩, rfl⟩
      | skip => cases hrest
      | yield a => cases hrest
  | cons l budget =>
      unfold collect at hrun
      obtain ⟨t, ⟨mid, log'⟩, hturn, hrest⟩ := done_of_bind hrun
      cases t with
      | stop =>
          obtain ⟨rfl, hr⟩ := Outcome.done.inj hrest
          cases hr
          exact .inl ⟨⟨_, hturn⟩, rfl⟩
      | skip => exact .inr ⟨l, budget, mid, rfl, .inl ⟨⟨_, hturn⟩, of_done (hc budget) hrest⟩⟩
      | yield a =>
          obtain ⟨as', r', has, hpure⟩ := done_of_bind hrest
          obtain ⟨rfl, rfl⟩ := Outcome.done.inj hpure
          exact .inr ⟨l, budget, mid, rfl, .inr ⟨a, as', rfl, ⟨_, hturn⟩, of_done (hc budget) has⟩⟩

theorem collect_stop (h : Takes turn env ls .stop rest) :
    Takes (collect turn budget) env ls [] rest := by
  obtain ⟨log, hrun⟩ := h
  exact ⟨log, Parser.collect_stop hrun⟩

theorem collect_yield {l : Lexeme} (ht : Oblivious turn) (h : Takes turn env ls (.yield a) mid)
    (hrest : Takes (collect turn budget) env mid as rest) :
    Takes (collect turn (l :: budget)) env ls (a :: as) rest := by
  obtain ⟨log, hrun⟩ := h
  obtain ⟨log', hrest⟩ := hrest.done (Oblivious.hereditary.collect ht budget) log
  exact ⟨log', Parser.collect_yield hrun hrest⟩

end Parser.Takes

end ProtoSchema
