/-
Every loop of the parser comes to an end.

What grows less with every turn is the number of tokens that are left.  Notes of the scanner
and illegal characters do not count: they are passed on the way to the next token, and a turn
that did nothing else would be repeated for ever at the end of the source.

For most loops this is plain, as a turn that goes on begins by taking a token.  The loops over
statements and members are different.  What they call may fail without having taken anything,
and skipping what failed may take nothing either, if a closing brace comes next.  But both at
once cannot happen.  A turn calls its parser only before a token that is no closing brace; so
either that parser takes it, or it is there to be skipped.  A closing brace ends a body, and in
a file it is passed by a turn of its own.

So the budgets that loops count their turns against are never spent, and as a file is read
until no token is left, a parse that gives a tree has read the whole source.
-/
import ProtoSchema.Proofs.Grammar.Means
import ProtoSchema.Proofs.Parsing.BraceDiscipline

namespace ProtoSchema

namespace Remainder

variable {r r₁ : Remainder} {xs ys : List Span} {t : Token} {s : Span} {ls : List Lexeme}

/-! ### Tokens that are left -/

/-- How many tokens have not been taken. -/
def pending (r : Remainder) : Nat := r.lexemes.countP Lexeme.isToken

theorem pending_token (t : Token) (s : Span) (ls : List Lexeme) (log log' : List Diagnostic) :
    pending ⟨.token t s :: ls, log⟩ = pending ⟨ls, log'⟩ + 1 :=
  List.countP_cons_of_pos rfl

theorem pending_settleWith (ls : List Lexeme) :
    ∀ log, (settleWith log ls).pending = pending ⟨ls, log⟩ := by
  induction ls with
  | nil => intro log; rfl
  | cons l ls ih =>
      intro log
      cases l with
      | token t s => rfl
      | illegal c s => exact ih _
      | note d => exact ih _

/-- Looking for the next token takes none. -/
theorem pending_settle (r : Remainder) : r.settle.pending = r.pending :=
  pending_settleWith r.lexemes r.log

theorem pending_of_settle (h : r.settle.lexemes = .token t s :: ls) (log : List Diagnostic) :
    r.pending = pending ⟨ls, log⟩ + 1 := by
  have he : r.settle = ⟨.token t s :: ls, r.settle.log⟩ := by rw [← h]
  rw [← pending_settle, he]
  exact pending_token t s ls _ log

theorem Reads.pending_le (h : Reads xs r r₁ ys) : r₁.pending ≤ r.pending := by
  obtain ⟨seg, -, hs, -⟩ := h
  unfold pending
  rw [hs, List.countP_append]
  omega

/-- Where a token comes next, whatever is read begins with it. -/
theorem Reads.pending_lt (h : r.settle.lexemes = .token t s :: ls) (hr : Reads xs r.settle r₁ ys)
    (hlt : r₁.lexemes.length < r.settle.lexemes.length) : r₁.pending < r.pending := by
  obtain ⟨seg, -, hs, -⟩ := hr
  cases seg with
  | nil => rw [hs, List.nil_append] at hlt; omega
  | cons l seg =>
      rw [h] at hs
      obtain ⟨-, hls⟩ := List.cons.inj hs
      have hrest : ls = seg ++ r₁.lexemes := hls
      rw [pending_of_settle h r₁.log, hrest, pending, pending, List.countP_append]
      omega

end Remainder

namespace Parser

open Remainder

variable {α β : Type} {n : Nat} {env : Surroundings} {r r₁ : Remainder} {t : Token} {s : Span}
  {ls : List Lexeme}

/-! ### Turns that take a token -/

/-- Every turn takes a token, or it leaves the loop. -/
def Advances (turn : Parser (Turn α)) : Prop :=
  ∀ env r t r', turn env r = .done t r' → t ≠ .stop → r'.pending < r.pending

/-- The same for a loop that changes a value turn by turn. -/
def AdvancesFrom (turn : β → Parser (Option β)) : Prop :=
  ∀ b env r b' r', turn b env r = .done (some b') r' → r'.pending < r.pending

/-- A turn that can only leave the loop. -/
def Leaves (turn : Parser (Turn α)) : Prop :=
  ∀ env r t r', turn env r = .done t r' → t = .stop

namespace Leaves

theorem stop : Leaves (Pure.pure .stop : Parser (Turn α)) := by
  intro env r t r' h
  cases h
  rfl

theorem unexpected (e : Expectation) : Leaves (unexpected e : Parser (Turn α)) := by
  intro env r t r' h
  rcases settle_lexemes r with hs | ⟨t, s, ls, hs⟩
  · rw [unexpected_run_nil e env hs] at h
    split at h
    · cases h
    · cases h
  · rw [unexpected_run_token e env hs] at h
    cases h

theorem bind {p : Parser β} {f : β → Parser (Turn α)} (hf : ∀ b, Leaves (f b)) :
    Leaves (p >>= f) := by
  intro env r t r' h
  rw [bind_run] at h
  split at h
  · exact hf _ _ _ _ _ h
  · cases h

end Leaves

/-- A turn that takes a token first, and leaves the loop if it is not there. -/
theorem Advances.accept {want : Token → Span → Option β} {next : Option β → Parser (Turn α)}
    (hnone : Leaves (next none)) (hsome : ∀ b, Orderly 0 false (next (some b))) :
    Advances (accept? want >>= next) := by
  intro env r t r' h hstop
  rcases settle_lexemes r with hs | ⟨tok, s, ls, hs⟩
  · rw [bind_done (accept?_run_nil want env hs)] at h
    exact absurd (hnone _ _ _ _ h) hstop
  · cases hw : want tok s with
    | none =>
        rw [bind_done (accept?_run_none env hs hw)] at h
        exact absurd (hnone _ _ _ _ h) hstop
    | some b =>
        rw [bind_done (accept?_run_some env hs hw)] at h
        have ho := hsome b env ⟨ls, r.settle.log⟩
        rw [h] at ho
        cases ho with
        | done reads shorter =>
            rw [pending_of_settle hs r.settle.log]
            exact Nat.lt_succ_of_le reads.pending_le

/-! ### Lists of items -/

section Items

theorem advances_nameTurn (stop : Terminator) : Advances (nameTurn stop) := by
  refine .accept (.bind fun t? => ?_) fun _ => .bind Orderly.ident.relax fun word => .pure _
  split
  · split
    · exact .stop
    · exact .unexpected _
  · exact .unexpected _

theorem advances_stringTurn : Advances stringTurn :=
  .accept .stop fun _ => .pure _

theorem advances_optionNameTurn : Advances optionNameTurn := by
  refine .accept (.bind fun found => ?_)
    fun _ => .bind Orderly.optionNamePart.relax fun part => .pure _
  split
  · exact .stop
  · exact .unexpected _

theorem advances_optionListTurn : Advances optionListTurn := by
  refine .accept (.bind fun t? => ?_)
    fun _ => .bind Orderly.optionSetting.relax fun setting => .pure _
  split
  · exact .stop
  · exact .unexpected _

theorem advances_separatedTurn {item : Parser α} (hi : Orderly 0 true item) :
    Advances (separatedTurn item) :=
  .accept .stop fun _ => .bind hi.relax fun _ => .pure _

end Items

/-! ### Loops that skip -/

/-- Takes the next token, whatever it is. -/
def bump : Parser Unit := do
  let _ ← accept? fun _ _ => some ()
  pure ()

theorem bump_run (env : Surroundings) (h : r.settle.lexemes = .token t s :: ls) :
    bump env r = .done () ⟨ls, r.settle.log⟩ := by
  have hrun : accept? (fun _ _ => some ()) env r = .done (some ()) ⟨ls, r.settle.log⟩ :=
    accept?_run_some env h rfl
  rw [bump, bind_done hrun]
  rfl

/--
A turn of the loop that skips to the end of a statement, at some depth of braces.  It leaves
the loop behind a semicolon or a block, or before a brace that was not opened.
-/
def skipTurn (depth : Nat) : Parser (Option Nat) := do
  match ← peek with
  | none => pure none
  | some t =>
    if t = .mark .leftBrace then do
      bump
      pure (some (depth + 1))
    else
      match depth with
      | 0 =>
        if t = .mark .semicolon then do
          bump
          pure none
        else if t = .mark .rightBrace then pure none
        else do
          bump
          pure (some 0)
      | depth + 1 => do
        bump
        if t = .mark .rightBrace then
          if depth = 0 then pure none else pure (some depth)
        else pure (some (depth + 1))

/-- A turn of the loop that skips a block, in which some further braces are open. -/
def blockTurn (depth : Nat) : Parser (Option Nat) := do
  match ← peek with
  | none => unexpected (.mark .rightBrace)
  | some t =>
    if t = .mark .leftBrace then do
      bump
      pure (some (depth + 1))
    else if t = .mark .rightBrace then
      match depth with
      | 0 => pure none
      | depth + 1 => do
        bump
        pure (some depth)
    else do
      bump
      pure (some depth)

theorem peek_nil (h : r.settle.lexemes = []) : peek env r = .done none r.settle := by
  rw [peek_run, (next?_eq_none_iff r).mpr h]

theorem peek_token (h : r.settle.lexemes = .token t s :: ls) :
    peek env r = .done (some t) ⟨.token t s :: ls, r.settle.log⟩ := by
  have hn : r.next? = some t := (next?_eq_some_iff r t).mpr ⟨s, ls, h⟩
  rw [peek_run, hn, ← h]

theorem skipStatement_settle (depth : Nat) (ls : List Lexeme) : ∀ log,
    skipStatement depth (settleWith log ls).log (settleWith log ls).lexemes =
      skipStatement depth log ls := by
  induction ls with
  | nil => intro log; rfl
  | cons l ls ih =>
      intro log
      cases l with
      | token t s => rfl
      | illegal c s => exact ih _
      | note d => exact ih _

theorem skipTurn_nil (env : Surroundings) (depth : Nat) (h : r.settle.lexemes = []) :
    skipTurn depth env r = .done none r.settle := by
  rw [skipTurn, bind_done (peek_nil h)]
  rfl

/-- A turn before a token is the end of skipping, or it skips this token. -/
theorem skipTurn_token (env : Surroundings) (depth : Nat) (h : r.settle.lexemes = .token t s :: ls) :
    skipTurn depth env r = .done none (skipStatement depth r.log r.lexemes) ∨
      ∃ d, skipTurn depth env r = .done (some d) ⟨ls, r.settle.log⟩ ∧
        skipStatement depth r.log r.lexemes = skipStatement d r.settle.log ls := by
  have hskip := skipStatement_settle depth r.lexemes r.log
  change skipStatement depth r.settle.log r.settle.lexemes = _ at hskip
  have hbump := bump_run (r := ⟨.token t s :: ls, r.settle.log⟩) env rfl
  rw [← hskip, h, skipTurn, bind_done (peek_token h)]
  -- The cases are those of the recursion that skips: braces, and a semicolon outside of them.
  by_cases hlb : t = .mark .leftBrace
  · simp only [if_pos hlb, bind_done hbump]
    exact Or.inr ⟨depth + 1, rfl, by cases depth <;> rw [skipStatement, if_pos hlb]⟩
  simp only [if_neg hlb]
  cases depth with
  | zero =>
      by_cases hsemi : t = .mark .semicolon
      · simp only [if_pos hsemi, bind_done hbump]
        refine Or.inl ?_
        rw [skipStatement, if_neg hlb, if_pos hsemi]
        rfl
      by_cases hrb : t = .mark .rightBrace
      · simp only [if_neg hsemi, if_pos hrb]
        refine Or.inl ?_
        rw [skipStatement, if_neg hlb, if_neg hsemi, if_pos hrb]
        rfl
      · simp only [if_neg hsemi, if_neg hrb, bind_done hbump]
        have hrest : skipStatement 0 r.settle.log (.token t s :: ls) =
            skipStatement 0 r.settle.log ls := by
          rw [skipStatement, if_neg hlb, if_neg hsemi, if_neg hrb]
        exact Or.inr ⟨0, rfl, hrest⟩
  | succ depth =>
      simp only [bind_done hbump]
      by_cases hrb : t = .mark .rightBrace
      · by_cases hd : depth = 0
        · simp only [if_pos hrb, if_pos hd]
          refine Or.inl ?_
          rw [skipStatement, if_neg hlb, if_pos hrb, if_pos hd]
          rfl
        · simp only [if_pos hrb, if_neg hd]
          exact Or.inr ⟨depth, rfl, by rw [skipStatement, if_neg hlb, if_pos hrb, if_neg hd]⟩
      · simp only [if_neg hrb]
        exact Or.inr ⟨depth + 1, rfl, by rw [skipStatement, if_neg hlb, if_neg hrb]⟩

/-- Turn by turn, the loop skips to the end of the statement. -/
theorem evolve_skipTurn (env : Surroundings) (budget : List Lexeme) :
    ∀ (depth : Nat) (r : Remainder), r.lexemes.length ≤ budget.length →
      ∃ d, evolve skipTurn budget depth env r =
        .done d (skipStatement depth r.log r.lexemes) := by
  induction budget with
  | nil =>
      intro depth r hlen
      have hnil : r.lexemes = [] := List.length_eq_zero_iff.mp (Nat.le_zero.mp hlen)
      have hset : r.settle = r := settle_of_nil hnil
      have hturn := skipTurn_nil env depth (hset.symm ▸ hnil)
      rw [evolve, bind_done hturn, hset]
      refine ⟨depth, ?_⟩
      rw [hnil]
      show Outcome.done depth r = .done depth ⟨[], r.log⟩
      rw [← hnil]
  | cons l budget ih =>
      intro depth r hlen
      rw [evolve, bind_run]
      rcases settle_lexemes r with h | ⟨t, s, ls, h⟩
      · rw [skipTurn_nil env depth h]
        have hskip := skipStatement_settle depth r.lexemes r.log
        change skipStatement depth r.settle.log r.settle.lexemes = _ at hskip
        rw [← hskip, h]
        refine ⟨depth, ?_⟩
        show Outcome.done depth r.settle = .done depth ⟨[], r.settle.log⟩
        rw [← h]
      · rcases skipTurn_token env depth h with hturn | ⟨d, hturn, hrest⟩
        · rw [hturn]
          exact ⟨depth, rfl⟩
        · rw [hturn, hrest]
          have hlt := length_lt_of_settle h
          rw [List.length_cons] at hlen
          exact ih d ⟨ls, r.settle.log⟩ (by simp only; omega)

/-- Recovery is the loop of these turns. -/
theorem recover_eq : recover = (do
    let _ ← iterate skipTurn 0
    pure ()) := by
  funext env r
  obtain ⟨d, hd⟩ := evolve_skipTurn env r.lexemes 0 r (Nat.le_refl _)
  have hrun : iterate skipTurn 0 env r = .done d (skipStatement 0 r.log r.lexemes) := hd
  rw [bind_done hrun]
  rfl

theorem advances_skipTurn : AdvancesFrom skipTurn := by
  intro depth env r b' r' h
  rcases settle_lexemes r with hs | ⟨t, s, ls, hs⟩
  · rw [skipTurn_nil env depth hs] at h
    cases h
  · rcases skipTurn_token env depth hs with hturn | ⟨d, hturn, -⟩
    · rw [hturn] at h
      cases h
    · rw [hturn] at h
      cases h
      rw [pending_of_settle hs r.settle.log]
      exact Nat.lt_succ_self _

/-! ### Blocks -/

theorem skipBlock_settle (depth : Nat) (ls : List Lexeme) : ∀ log,
    skipBlock depth (settleWith log ls).log (settleWith log ls).lexemes =
      skipBlock depth log ls := by
  induction ls with
  | nil => intro log; rfl
  | cons l ls ih =>
      intro log
      cases l with
      | token t s => rfl
      | illegal c s => exact ih _
      | note d => exact ih _

theorem blockTurn_nil (env : Surroundings) (depth : Nat) (h : r.settle.lexemes = []) :
    blockTurn depth env r = unexpected (.mark .rightBrace) env r.settle := by
  rw [blockTurn.eq_def, bind_done (peek_nil h)]

/-- A turn before a token is at the end of the block, or it passes this token. -/
theorem blockTurn_token (env : Surroundings) (depth : Nat) (h : r.settle.lexemes = .token t s :: ls) :
    (t = .mark .rightBrace ∧ blockTurn depth env r = .done none r.settle ∧
        skipBlock depth r.log r.lexemes = (some s, ⟨ls, r.settle.log⟩)) ∨
      ∃ d, blockTurn depth env r = .done (some d) ⟨ls, r.settle.log⟩ ∧
        skipBlock depth r.log r.lexemes = skipBlock d r.settle.log ls := by
  have hskip := skipBlock_settle depth r.lexemes r.log
  change skipBlock depth r.settle.log r.settle.lexemes = _ at hskip
  have hbump := bump_run (r := ⟨.token t s :: ls, r.settle.log⟩) env rfl
  rw [← hskip, h, blockTurn.eq_def, bind_done (peek_token h)]
  by_cases hlb : t = .mark .leftBrace
  · simp only [if_pos hlb, bind_done hbump]
    exact Or.inr ⟨depth + 1, rfl, by cases depth <;> rw [skipBlock, if_pos hlb]⟩
  simp only [if_neg hlb]
  by_cases hrb : t = .mark .rightBrace
  · simp only [if_pos hrb]
    cases depth with
    | zero =>
        refine Or.inl ⟨hrb, ?_, by rw [skipBlock, if_neg hlb, if_pos hrb]⟩
        rw [← h]
        rfl
    | succ depth =>
        simp only [bind_done hbump]
        exact Or.inr ⟨depth, rfl, by rw [skipBlock, if_neg hlb, if_pos hrb]⟩
  · simp only [if_neg hrb, bind_done hbump]
    exact Or.inr ⟨depth, rfl, skipBlock_plain hlb hrb _ _ _ _⟩

/-- Turn by turn, the loop goes to the brace that closes the block, and this is taken. -/
theorem evolve_blockTurn (env : Surroundings) (budget : List Lexeme) :
    ∀ (depth : Nat) (r : Remainder), r.lexemes.length ≤ budget.length →
      (evolve blockTurn budget depth >>= fun _ => expectMark .rightBrace) env r =
        match skipBlock depth r.log r.lexemes with
        | (some s, r') => .done s r'
        | (none, r') => unexpected (.mark .rightBrace) env r' := by
  -- At the end of the source any budget leads to the report that the brace is missing.
  have hends : ∀ (budget : List Lexeme) (depth : Nat) (r : Remainder), r.settle.lexemes = [] →
      (evolve blockTurn budget depth >>= fun _ => expectMark .rightBrace) env r =
        unexpected (.mark .rightBrace) env r.settle := by
    intro budget depth r h
    have hset : r.settle.settle.lexemes = [] := by rw [settle_settle, h]
    have hturn := blockTurn_nil env depth h
    rw [bind_run, unexpected_run_nil _ env hset]
    cases budget <;>
      rw [evolve, bind_run, hturn, unexpected_run_nil _ env hset] <;>
      cases env.inBody <;> rfl
  induction budget with
  | nil =>
      intro depth r hlen
      have hnil : r.lexemes = [] := List.length_eq_zero_iff.mp (Nat.le_zero.mp hlen)
      have hset : r.settle = r := settle_of_nil hnil
      rw [hends [] depth r (hset.symm ▸ hnil), hset, hnil]
      show _ = unexpected (.mark .rightBrace) env ⟨[], r.log⟩
      rw [← hnil]
  | cons l budget ih =>
      intro depth r hlen
      rcases settle_lexemes r with h | ⟨t, s, ls, h⟩
      · have hskip := skipBlock_settle depth r.lexemes r.log
        change skipBlock depth r.settle.log r.settle.lexemes = _ at hskip
        rw [hends _ depth r h, ← hskip, h]
        show _ = unexpected (.mark .rightBrace) env ⟨[], r.settle.log⟩
        rw [← h]
      · rcases blockTurn_token env depth h with ⟨rfl, hturn, hrest⟩ | ⟨d, hturn, hrest⟩
        · have hclose := expectMark_run (r := r.settle) env (by rw [settle_settle, h])
          rw [evolve, bind_assoc, bind_done hturn, hrest, pure_bind, hclose, settle_settle]
        · have hlt := length_lt_of_settle h
          rw [List.length_cons] at hlen
          rw [evolve, bind_assoc, bind_done hturn, hrest]
          exact ih d ⟨ls, r.settle.log⟩ (by simp only; omega)

/-- The rest of a block is the loop of these turns. -/
theorem blockEnd_eq : blockEnd = (do
    let _ ← iterate blockTurn 0
    expectMark .rightBrace) := by
  funext env r
  exact (evolve_blockTurn env r.lexemes 0 r (Nat.le_refl _)).symm

theorem advances_blockTurn : AdvancesFrom blockTurn := by
  intro depth env r b' r' h
  rcases settle_lexemes r with hs | ⟨t, s, ls, hs⟩
  · rw [blockTurn_nil env depth hs, unexpected_run_nil _ env (by rw [settle_settle, hs])] at h
    split at h <;> cases h
  · rcases blockTurn_token env depth hs with ⟨-, hturn, -⟩ | ⟨d, hturn, -⟩
    · rw [hturn] at h
      cases h
    · rw [hturn] at h
      cases h
      rw [pending_of_settle hs r.settle.log]
      exact Nat.lt_succ_self _

/-! ### Members and statements -/

theorem pending_skipStatement_le (depth : Nat) (log : List Diagnostic) (ls : List Lexeme) :
    (skipStatement depth log ls).pending ≤ pending ⟨ls, log⟩ := by
  obtain ⟨ys, hr, -⟩ := reads_skipStatement ls depth log (List.replicate depth default) (by simp)
  exact hr.pending_le

theorem pending_skipStatement_token (ht : t ≠ .mark .rightBrace) (s : Span)
    (log : List Diagnostic) (ls : List Lexeme) :
    (skipStatement 0 log (.token t s :: ls)).pending ≤ pending ⟨ls, log⟩ := by
  by_cases hlb : t = .mark .leftBrace
  · rw [skipStatement, if_pos hlb]
    exact pending_skipStatement_le 1 log ls
  · by_cases hsemi : t = .mark .semicolon
    · have hskip : skipStatement 0 log (.token t s :: ls) = ⟨ls, log⟩ := by
        rw [skipStatement, if_neg hlb, if_pos hsemi]
      exact Nat.le_of_eq (congrArg pending hskip)
    · rw [skipStatement, if_neg hlb, if_neg hsemi, if_neg ht]
      exact pending_skipStatement_le 0 log ls

/--
What fails before a token that is no closing brace is skipped, and this token with it: if the
parser has not taken it, skipping does.
-/
theorem pending_skipStatement_lt {p : Parser α} (hp : Orderly n true p)
    (h : r.settle.lexemes = .token t s :: ls) (ht : t ≠ .mark .rightBrace)
    (hrun : p env r.settle = .halted .mismatch r₁) :
    (skipStatement 0 r₁.log r₁.lexemes).pending < r.pending := by
  have ho := hp env r.settle
  rw [hrun] at ho
  cases ho with
  | @unexpected mid e t' s' ls' reads token =>
      by_cases hsame : r.settle.lexemes.length ≤ mid.lexemes.length
      · rw [reads.eq_of_length_le hsame, h, pending_of_settle h r.log]
        exact Nat.lt_succ_of_le (pending_skipStatement_token ht s _ ls)
      · have hlt := reads.pending_lt h (Nat.lt_of_not_le hsame)
        exact Nat.lt_of_le_of_lt (pending_skipStatement_le 0 _ mid.lexemes) hlt
  | silent inBody reads ends =>
      rw [ends, pending_of_settle h r.log]
      exact Nat.succ_pos _
  | eof inBody reads ends =>
      rw [pending_of_settle h r.log]
      exact Nat.succ_pos _

/-- What is done before a token takes it, if the parser always takes something. -/
theorem pending_done_lt {p : Parser α} {a : α} (hp : Orderly n true p)
    (h : r.settle.lexemes = .token t s :: ls) (hrun : p env r.settle = .done a r₁) :
    r₁.pending < r.pending := by
  have ho := hp env r.settle
  rw [hrun] at ho
  cases ho with
  | done reads shorter => exact reads.pending_lt h (shorter rfl)

theorem advances_bodyTurn (kind : BodyKind) (opening : Span) {member : Parser α}
    (hm : Orderly n true member) : Advances (bodyTurn kind opening member) := by
  intro env r turn r' hrun hstop
  rcases settle_lexemes r with h | ⟨t, s, ls, h⟩
  · rw [bodyTurn_nil h] at hrun
    cases hrun
  by_cases hr : t = .mark .rightBrace
  · subst hr
    rw [bodyTurn_rightBrace h] at hrun
    cases hrun
    exact absurd rfl hstop
  by_cases hs : t = .mark .semicolon
  · subst hs
    rw [bodyTurn_semicolon h] at hrun
    cases hrun
    rw [pending_of_settle h r.settle.log]
    exact Nat.lt_succ_self _
  rw [bodyTurn_member h hr hs] at hrun
  cases hmember : member env r.settle with
  | done m r₁ =>
      rw [hmember] at hrun
      cases hrun
      exact pending_done_lt hm h hmember
  | halted reason r₁ =>
      rw [hmember] at hrun
      cases reason with
      | mismatch =>
          cases hrun
          exact pending_skipStatement_lt hm h hr hmember
      | unclosed => cases hrun
      | exhausted => cases hrun

theorem advances_nextStatement : AdvancesFrom nextStatement := by
  intro draft env r draft' r' hrun
  rcases settle_lexemes r with h | ⟨t, s, ls, h⟩
  · rw [nextStatement_nil h] at hrun
    cases hrun
  by_cases hs : t = .mark .semicolon
  · subst hs
    rw [nextStatement_semicolon h] at hrun
    cases hrun
    rw [pending_of_settle h r.settle.log]
    exact Nat.lt_succ_self _
  by_cases hr : t = .mark .rightBrace
  · subst hr
    rw [nextStatement_rightBrace h] at hrun
    cases hrun
    rw [pending_of_settle h r.settle.log]
    exact Nat.lt_succ_self _
  rw [nextStatement_statement h hs hr] at hrun
  cases hstatement : statement env r.settle with
  | done st r₁ =>
      rw [hstatement] at hrun
      cases hrun
      have hlt : r₁.pending < r.pending := pending_done_lt (n := 0) Orderly.statement h hstatement
      exact hlt
  | halted reason r₁ =>
      rw [hstatement] at hrun
      cases reason with
      | mismatch =>
          cases hrun
          exact pending_skipStatement_lt (n := 0) Orderly.statement h hr hstatement
      | unclosed => cases hrun
      | exhausted => cases hrun

/-! ### All loops -/

/-- The loops of the grammar with their turns, none of which goes on without taking a token. -/
structure LoopsAdvance : Prop where
  /-- The statements of a file. -/
  file : Parser.file = (do
      let draft ← iterate nextStatement ⟨.empty, true⟩
      Pure.pure draft.file) ∧ AdvancesFrom nextStatement
  /-- The members of a body; messages may be nested. -/
  body : ∀ {α : Type} (kind : BodyKind) (member : Parser α), Parser.body kind member = (do
      let opening ← Parser.expectMark .leftBrace
      let members ← inside (Parser.many (bodyTurn kind opening member))
      let closing ← Parser.expectMark .rightBrace
      Pure.pure (members, closing))
  message : ∀ budget opening,
    Advances (bodyTurn .message opening (messageMember (messageWithin budget)))
  oneof : ∀ opening, Advances (bodyTurn .oneof opening oneofMember)
  extend : ∀ opening, Advances (bodyTurn .extend opening extendMember)
  enum : ∀ opening, Advances (bodyTurn .enum opening enumMember)
  service : ∀ opening, Advances (bodyTurn .service opening serviceMember)
  method : ∀ opening, Advances (bodyTurn .method opening methodMember)
  /-- The tokens of a statement that is skipped. -/
  recover : Parser.recover = (do
      let _ ← iterate skipTurn 0
      Pure.pure ()) ∧ AdvancesFrom skipTurn
  /-- The tokens of a block in braces. -/
  block : blockEnd = (do
      let _ ← iterate blockTurn 0
      Parser.expectMark .rightBrace) ∧ AdvancesFrom blockTurn
  optionList : Parser.optionList = (do
      let opening ← Parser.expectMark .leftBracket
      let first ← Parser.optionSetting
      let rest ← Parser.many optionListTurn
      let closing ← Parser.expectMark .rightBracket
      Pure.pure ⟨first :: rest, opening.through closing⟩) ∧ Advances optionListTurn
  optionName : Parser.optionSetting = (do
      let first ← Parser.optionNamePart
      let rest ← Parser.many optionNameTurn
      let value ← Parser.optionValue
      Pure.pure ⟨first, rest, value⟩) ∧ Advances optionNameTurn
  dottedName : ∀ stop, Parser.dottedName stop = (do
      let first ← Parser.ident
      let rest ← Parser.many (nameTurn stop)
      Pure.pure ⟨first, rest⟩) ∧ Advances (nameTurn stop)
  string : Parser.stringLiteral = (do
      let first ← Parser.require .string quoted?
      let rest ← Parser.many stringTurn
      Pure.pure ⟨first.bytes ++ rest.flatMap StringLiteral.bytes,
        first.span.through (rest.getLastD first).span⟩) ∧ Advances stringTurn
  /-- Ranges and names behind each other, with commas between them. -/
  ranges : Advances (separatedTurn numberRange)
  names : Advances (separatedTurn reservedName)

theorem loopsAdvance : LoopsAdvance where
  file := ⟨rfl, advances_nextStatement⟩
  body := body_eq
  message budget opening :=
    advances_bodyTurn _ opening (Orderly.messageMember (Orderly.messageWithin budget))
  oneof opening := advances_bodyTurn (n := 0) _ opening Orderly.oneofMember
  extend opening := advances_bodyTurn (n := 0) _ opening Orderly.extendMember
  enum opening := advances_bodyTurn (n := 0) _ opening Orderly.enumMember
  service opening := advances_bodyTurn (n := 0) _ opening Orderly.serviceMember
  method opening := advances_bodyTurn (n := 0) _ opening Orderly.methodMember
  recover := ⟨recover_eq, advances_skipTurn⟩
  block := ⟨blockEnd_eq, advances_blockTurn⟩
  optionList := ⟨optionList_eq, advances_optionListTurn⟩
  optionName := ⟨optionSetting_eq, advances_optionNameTurn⟩
  dottedName stop := ⟨dottedName_eq stop, advances_nameTurn stop⟩
  string := ⟨stringLiteral_eq, advances_stringTurn⟩
  ranges := advances_separatedTurn Orderly.numberRange
  names := advances_separatedTurn Orderly.reservedName

end Parser

/--
**The parser comes to an end, and reads the whole source.**  Every turn that does not leave its
loop leaves fewer tokens.  So a parse ends with a tree, or with a body that is not closed; no
loop lacks turns.  If it ends with a tree, nothing of the source is left.
-/
theorem parseFile_ends :
    Parser.LoopsAdvance ∧ ∀ source : List Char,
      (∃ file r, Parser.file ⟨source, false⟩ ⟨scan source, []⟩ = .done file r ∧
        parseFile source = .tree file r.log.reverse ∧ r.lexemes = []) ∨
      (∃ r, Parser.file ⟨source, false⟩ ⟨scan source, []⟩ = .halted .unclosed r ∧
        parseFile source = .unclosed r.log.reverse) := by
  refine ⟨Parser.loopsAdvance, fun source => ?_⟩
  have hend : Parser.FileEnd ⟨scan source, []⟩
      (Parser.iterate Parser.nextStatement ⟨.empty, true⟩ ⟨source, false⟩ ⟨scan source, []⟩) :=
    Parser.evolve_nextStatement rfl (scan source) _ _ (Nat.le_refl _)
  unfold parseFile Parser.file
  rw [Parser.bind_run]
  generalize Parser.iterate Parser.nextStatement ⟨.empty, true⟩ ⟨source, false⟩
    ⟨scan source, []⟩ = o at hend ⊢
  cases hend with
  | tree surveys ends told => exact Or.inl ⟨_, _, rfl, rfl, ends⟩
  | eof surveys ends => exact Or.inl ⟨_, _, rfl, rfl, rfl⟩
  | unclosed surveys ends mem => exact Or.inr ⟨_, rfl, rfl⟩

end ProtoSchema
