/-
Braces in the grammar.

Only two productions open a brace, a body and a block, and only two loops pass over braces
without looking at what stands between them, the one that skips a statement and the one
that skips a block.  Both loops count the braces that they pass with a depth of their own.
What ties that depth to the stack of open braces is that it is its length: skipping at
depth `n` from a stack of `n` braces ends with the empty stack, or at the end of the
source.

So a mismatch within a body leaves the parser either behind the statement, with the
braces as they were, or at the end of the source, where the body finds itself unclosed.
-/
import ProtoSchema.Grammar.Option
import ProtoSchema.Proofs.Parsing.Orderly

namespace ProtoSchema.Parser

open Remainder

variable {α : Type} {n : Nat} {env : Surroundings} {r : Remainder}

/-! ### Skipping -/

/-- Skipping a statement closes what it opens, or goes on to the end of the source. -/
theorem reads_skipStatement (ls : List Lexeme) :
    ∀ (depth : Nat) (log : List Diagnostic) (xs : List Span), xs.length = depth →
      ∃ ys, Reads xs ⟨ls, log⟩ (skipStatement depth log ls) ys ∧
        (ys = [] ∨ (skipStatement depth log ls).lexemes = []) := by
  induction ls with
  | nil =>
      intro depth log xs hxs
      exact ⟨xs, .refl xs _, Or.inr rfl⟩
  | cons l ls ih =>
      intro depth log xs hxs
      cases l with
      | note d =>
          obtain ⟨ys, hr, hys⟩ := ih depth (d :: log) xs hxs
          exact ⟨ys, (Reads.note d xs ls log).trans hr, hys⟩
      | illegal c s =>
          obtain ⟨ys, hr, hys⟩ := ih depth (.invalidToken c s :: log) xs hxs
          exact ⟨ys, (Reads.illegal c s xs ls log).trans hr, hys⟩
      | token t s =>
          by_cases hlb : t = .mark .leftBrace
          · subst hlb
            obtain ⟨ys, hr, hys⟩ := ih (depth + 1) log (s :: xs) (by simp [hxs])
            exact ⟨ys, (Reads.lexeme log (.opening s xs)).trans hr, hys⟩
          by_cases hrb : t = .mark .rightBrace
          · subst hrb
            -- At depth zero and at depth one a closing brace is the end; only the second is taken.
            match depth, xs, hxs with
            | 0, [], _ => exact ⟨[], .refl [] _, Or.inl rfl⟩
            | 1, [x], _ => exact ⟨[], .lexeme log (.closing x s []), Or.inl rfl⟩
            | depth + 2, x :: xs, hxs =>
                obtain ⟨ys, hr, hys⟩ := ih (depth + 1) log xs (by simpa using hxs)
                exact ⟨ys, (Reads.lexeme log (.closing x s xs)).trans hr, hys⟩
          have hplain := isBrace_token hlb hrb s
          match depth, xs, hxs with
          | 0, [], _ =>
              by_cases hsemi : t = .mark .semicolon
              · subst hsemi
                exact ⟨[], .lexeme log (.plain rfl []), Or.inl rfl⟩
              · obtain ⟨ys, hr, hys⟩ := ih 0 log [] rfl
                have he : skipStatement 0 log (.token t s :: ls) = skipStatement 0 log ls := by
                  rw [skipStatement, if_neg hlb, if_neg hsemi, if_neg hrb]
                rw [he]
                exact ⟨ys, (Reads.lexeme log (.plain hplain [])).trans hr, hys⟩
          | depth + 1, xs, hxs =>
              obtain ⟨ys, hr, hys⟩ := ih (depth + 1) log xs hxs
              have he : skipStatement (depth + 1) log (.token t s :: ls) =
                  skipStatement (depth + 1) log ls := by
                rw [skipStatement, if_neg hlb, if_neg hrb]
              rw [he]
              exact ⟨ys, (Reads.lexeme log (.plain hplain xs)).trans hr, hys⟩

theorem length_skipStatement_le (depth : Nat) (log : List Diagnostic) (ls : List Lexeme) :
    (skipStatement depth log ls).lexemes.length ≤ ls.length := by
  obtain ⟨ys, hr, -⟩ := reads_skipStatement ls depth log (List.replicate depth default) (by simp)
  exact hr.length_le

/-- Only before a closing brace can the skipped statement be empty. -/
theorem length_skipStatement_lt {t : Token} (ht : t ≠ .mark .rightBrace) (s : Span)
    (log : List Diagnostic) (ls : List Lexeme) :
    (skipStatement 0 log (.token t s :: ls)).lexemes.length < ls.length + 1 := by
  by_cases hlb : t = .mark .leftBrace
  · rw [skipStatement, if_pos hlb]
    exact Nat.lt_succ_of_le (length_skipStatement_le 1 log ls)
  · by_cases hsemi : t = .mark .semicolon
    · rw [skipStatement, if_neg hlb, if_pos hsemi]
      exact Nat.lt_succ_self _
    · rw [skipStatement, if_neg hlb, if_neg hsemi, if_neg ht]
      exact Nat.lt_succ_of_le (length_skipStatement_le 0 log ls)

/-- Skipping a block closes all that is open in it, or goes on to the end of the source. -/
theorem reads_skipBlock (ls : List Lexeme) :
    ∀ (depth : Nat) (log : List Diagnostic) (xs : List Span), xs.length = depth + 1 →
      ∃ ys, Reads xs ⟨ls, log⟩ (skipBlock depth log ls).2 ys ∧
        match (skipBlock depth log ls).1 with
        | some _ => ys = []
        | none => (skipBlock depth log ls).2.lexemes = [] := by
  induction ls with
  | nil =>
      intro depth log xs hxs
      exact ⟨xs, .refl xs _, rfl⟩
  | cons l ls ih =>
      intro depth log xs hxs
      cases l with
      | note d =>
          obtain ⟨ys, hr, hys⟩ := ih depth (d :: log) xs hxs
          exact ⟨ys, (Reads.note d xs ls log).trans hr, hys⟩
      | illegal c s =>
          obtain ⟨ys, hr, hys⟩ := ih depth (.invalidToken c s :: log) xs hxs
          exact ⟨ys, (Reads.illegal c s xs ls log).trans hr, hys⟩
      | token t s =>
          by_cases hlb : t = .mark .leftBrace
          · subst hlb
            obtain ⟨ys, hr, hys⟩ := ih (depth + 1) log (s :: xs) (by simp [hxs])
            exact ⟨ys, (Reads.lexeme log (.opening s xs)).trans hr, hys⟩
          by_cases hrb : t = .mark .rightBrace
          · subst hrb
            match depth, xs, hxs with
            | 0, [x], _ => exact ⟨[], .lexeme log (.closing x s []), rfl⟩
            | depth + 1, x :: xs, hxs =>
                obtain ⟨ys, hr, hys⟩ := ih depth log xs (by simpa using hxs)
                exact ⟨ys, (Reads.lexeme log (.closing x s xs)).trans hr, hys⟩
          obtain ⟨ys, hr, hys⟩ := ih depth log xs hxs
          rw [skipBlock_plain hlb hrb]
          exact ⟨ys, (Reads.lexeme log (.plain (isBrace_token hlb hrb s) xs)).trans hr, hys⟩

/-! ### Opening -/

theorem unexpected_bind {β : Type} (e : Expectation) (f : α → Parser β) :
    (unexpected e >>= f) = unexpected e := by
  funext env r
  rw [bind_run]
  rcases settle_lexemes r with h | ⟨t, s, ls, h⟩
  · rw [unexpected_run_nil e env h, unexpected_run_nil e env h]
    by_cases hb : env.inBody = true
    · rw [if_pos hb, if_pos hb]
    · rw [if_neg hb, if_neg hb]
  · rw [unexpected_run_token e env h, unexpected_run_token e env h]

/-- A mark that must come next is taken, or what comes instead is reported. -/
theorem expectMark_bind {β : Type} (p : Punctuation) (f : Span → Parser β)
    (env : Surroundings) (r : Remainder) :
    (∃ s ls, r.settle.lexemes = .token (.mark p) s :: ls ∧
      (expectMark p >>= f) env r = f s env ⟨ls, r.settle.log⟩) ∨
    (expectMark p >>= f) env r = (unexpected (.mark p) : Parser β) env r.settle := by
  have hun : ∀ h : accept? (fun t s => if t = .mark p then some s else none) env r =
      .done none r.settle,
      (expectMark p >>= f) env r = (unexpected (.mark p) : Parser β) env r.settle := by
    intro h
    rw [expectMark_eq, require, bind_assoc, bind_run, h, ← unexpected_bind (.mark p) f]
  rcases settle_lexemes r with h | ⟨t, s, ls, h⟩
  · exact Or.inr (hun (accept?_run_nil _ env h))
  · by_cases ht : t = .mark p
    · subst ht
      exact Or.inl ⟨s, ls, h, by rw [bind_run, expectMark_run env h]⟩
    · exact Or.inr (hun (accept?_run_none env h (if_neg ht)))

/-- A brace that must come next is opened. -/
theorem reads_leftBrace {s : Span} {ls : List Lexeme}
    (h : r.settle.lexemes = .token (.mark .leftBrace) s :: ls) :
    Reads [] r ⟨ls, r.settle.log⟩ [s] := by
  have he : r.settle = ⟨.token (.mark .leftBrace) s :: ls, r.settle.log⟩ := by rw [← h]
  have hstep : Reads [] r.settle ⟨ls, r.settle.log⟩ [s] := by
    rw [he]
    exact .lexeme _ (.opening s [])
  exact (reads_settle [] r).trans hstep

/-! ### Blocks -/

theorem Orderly.aggregate : Orderly n true aggregate := by
  intro env r
  unfold Parser.aggregate
  rcases expectMark_bind .leftBrace _ env r with ⟨s, ls, hset, hrun⟩ | hrun
  · rw [hrun]
    have hlt := length_lt_of_settle hset
    obtain ⟨ys, hr, hys⟩ := reads_skipBlock ls 0 r.settle.log [s] rfl
    have hreads := (reads_leftBrace hset).trans hr
    simp only [bind_run, blockEnd]
    cases hskip : skipBlock 0 r.settle.log ls with
    | mk found mid =>
        rw [hskip] at hr hys hreads
        cases found with
        | some closing =>
            have hle := hr.length_le
            obtain rfl : ys = [] := hys
            exact .done hreads fun _ => Nat.lt_of_le_of_lt hle hlt
        | none =>
            obtain ⟨rest, log⟩ := mid
            obtain rfl : rest = [] := hys
            have hu := unexpected_run_nil (α := Span) (.mark .rightBrace) env
              (settle_nil log ▸ rfl : (settle ⟨[], log⟩).lexemes = [])
            simp only [hu, settle_nil]
            by_cases hb : env.inBody = true
            · rw [if_pos hb]
              exact .silent hb hreads rfl
            · rw [if_neg hb]
              exact .eof (by simpa using hb) hreads rfl
  · rw [hrun]
    exact ((Orderly.unexpected _) env r.settle).prepend (reads_settle [] r)

/-! ### Bodies -/

/-- One turn of the loop over the members of a body. -/
def bodyTurn (kind : BodyKind) (opening : Span) (member : Parser α) : Parser (Turn α) := do
  match ← peek with
  | none => do
    report (.unterminatedBody kind opening)
    halt .unclosed
  | some (.mark .rightBrace) => pure .stop
  | some (.mark .semicolon) => do
    let _ ← acceptMark? .semicolon
    pure .skip
  | some _ => do
    match ← attempt member with
    | some m => pure (.yield m)
    | none => do
      recover
      pure .skip

theorem body_eq (kind : BodyKind) (member : Parser α) :
    body kind member = (do
      let opening ← expectMark .leftBrace
      let members ← inside (many (bodyTurn kind opening member))
      let closing ← expectMark .rightBrace
      pure (members, closing)) := rfl

section Turns

variable {kind : BodyKind} {opening : Span} {member : Parser α} {s : Span} {ls : List Lexeme}

theorem bodyTurn_nil (h : r.settle.lexemes = []) :
    bodyTurn kind opening member env r =
      .halted .unclosed ⟨[], .unterminatedBody kind opening :: r.settle.log⟩ := by
  have hn : r.next? = none := (next?_eq_none_iff r).mpr h
  rw [bodyTurn, bind_run, peek_run, hn]
  simp only [bind_run, report, halt, h]

theorem bodyTurn_rightBrace (h : r.settle.lexemes = .token (.mark .rightBrace) s :: ls) :
    bodyTurn kind opening member env r = .done .stop r.settle := by
  have hn : r.next? = some (.mark .rightBrace) := (next?_eq_some_iff r _).mpr ⟨s, ls, h⟩
  rw [bodyTurn, bind_run, peek_run, hn]
  rfl

theorem bodyTurn_semicolon (h : r.settle.lexemes = .token (.mark .semicolon) s :: ls) :
    bodyTurn kind opening member env r = .done .skip ⟨ls, r.settle.log⟩ := by
  have hn : r.next? = some (.mark .semicolon) := (next?_eq_some_iff r _).mpr ⟨s, ls, h⟩
  have ha : acceptMark? .semicolon env r.settle = .done (some s) ⟨ls, r.settle.log⟩ := by
    have hset : r.settle.settle.lexemes = .token (.mark .semicolon) s :: ls := by
      rw [settle_settle, h]
    rw [acceptMark?, accept?_run_some env hset (a := s) (if_pos rfl), settle_settle]
  rw [bodyTurn, bind_run, peek_run, hn]
  simp only [bind_run, ha]
  rfl

theorem bodyTurn_member {t : Token} (h : r.settle.lexemes = .token t s :: ls)
    (hr : t ≠ .mark .rightBrace) (hs : t ≠ .mark .semicolon) :
    bodyTurn kind opening member env r =
      match member env r.settle with
      | .done m r' => .done (.yield m) r'
      | .halted .mismatch r' => .done .skip (skipStatement 0 r'.log r'.lexemes)
      | .halted reason r' => .halted reason r' := by
  have hn : r.next? = some t := (next?_eq_some_iff r t).mpr ⟨s, ls, h⟩
  rw [bodyTurn, bind_run, peek_run, hn]
  simp only [bind_run, attempt]
  cases member env r.settle with
  | done m r' => rfl
  | halted reason r' => cases reason <;> rfl

end Turns

/-- What comes of the members behind an opening brace. -/
inductive InBody (n : Nat) (opening : Span) (r : Remainder) : Outcome (List α) → Prop
  | done {ms : List α} {r' : Remainder} {s : Span} {ls : List Lexeme}
      (reads : Reads [opening] r r' [opening])
      (closing : r'.lexemes = .token (.mark .rightBrace) s :: ls) :
      InBody n opening r (.done ms r')
  | unclosed {opened : List Span} {mid : Remainder} {kind : BodyKind} {s : Span}
      (reads : Reads [opening] r mid opened) (ends : mid.lexemes = []) (mem : s ∈ opened) :
      InBody n opening r (.halted .unclosed ⟨[], .unterminatedBody kind s :: mid.log⟩)
  | exhausted {r' : Remainder} (budget : n < r.lexemes.length) :
      InBody n opening r (.halted .exhausted r')

theorem InBody.prepend {opening : Span} {r₁ : Remainder} {o : Outcome (List α)}
    (hr : Reads [] r r₁ []) (ho : InBody n opening r₁ o) : InBody n opening r o := by
  have hle := hr.length_le
  have hframe : Reads [opening] r r₁ [opening] := hr.frame [opening]
  cases ho with
  | done reads closing => exact .done (hframe.trans reads) closing
  | unclosed reads ends mem => exact .unclosed (hframe.trans reads) ends mem
  | exhausted budget => exact .exhausted (by omega)

/-- If something was left open on the way, the source has ended. -/
theorem InBody.atEnd {opening : Span} {r₁ : Remainder} {ys : List Span} {o : Outcome (List α)}
    (hr : Reads [] r r₁ ys) (hend : r₁.lexemes = []) (ho : InBody n opening r₁ o) :
    InBody n opening r o := by
  have hle := hr.length_le
  have hframe : Reads [opening] r r₁ (ys ++ [opening]) := hr.frame [opening]
  cases ho with
  | done reads closing =>
      have hlen := reads.length_le
      rw [closing, hend] at hlen
      simp at hlen
  | unclosed reads ends mem =>
      obtain ⟨rfl, hstay⟩ := reads.of_nil hend
      exact .unclosed (hframe.trans (hstay _)) ends (List.mem_append_right _ mem)
  | exhausted budget => exact .exhausted (by omega)

/-- What comes of one turn of the loop over members. -/
inductive BodyStep (n : Nat) (opening : Span) (r : Remainder) : Outcome (Turn α) → Prop
  | stop {r' : Remainder} {s : Span} {ls : List Lexeme} (reads : Reads [] r r' [])
      (closing : r'.lexemes = .token (.mark .rightBrace) s :: ls) :
      BodyStep n opening r (.done .stop r')
  /-- Behind a statement that was skipped the source may have ended. -/
  | next {t : Turn α} {r' : Remainder} {ys : List Span} (ht : t ≠ .stop)
      (reads : Reads [] r r' ys) (ends : ys = [] ∨ r'.lexemes = [])
      (shorter : r'.lexemes.length < r.lexemes.length) :
      BodyStep n opening r (.done t r')
  | halted {reason : Halt} {r' : Remainder}
      (ho : InBody (α := α) n opening r (.halted reason r')) :
      BodyStep n opening r (.halted reason r')

theorem bodyTurn_step (kind : BodyKind) (opening : Span) {member : Parser α}
    (hm : Orderly n true member) (hb : env.inBody = true) (r : Remainder) :
    BodyStep n opening r (bodyTurn kind opening member env r) := by
  have hset := reads_settle [] r
  rcases settle_lexemes r with h | ⟨t, s, ls, h⟩
  · rw [bodyTurn_nil h]
    exact .halted (.unclosed (hset.frame [opening]) h (List.mem_singleton_self opening))
  have hlt := length_lt_of_settle h
  by_cases hr : t = .mark .rightBrace
  · subst hr
    rw [bodyTurn_rightBrace h]
    exact .stop hset h
  by_cases hs : t = .mark .semicolon
  · subst hs
    rw [bodyTurn_semicolon h]
    have he : r.settle = ⟨.token (.mark .semicolon) s :: ls, r.settle.log⟩ := by rw [← h]
    have hstep : Reads [] r.settle ⟨ls, r.settle.log⟩ [] := by
      rw [he]
      exact .lexeme _ (.plain rfl [])
    exact .next (by simp) (hset.trans hstep) (Or.inl rfl) hlt
  -- Neither brace nor semicolon: a member, and what cannot be read as one is skipped.
  rw [bodyTurn_member h hr hs]
  have ho := (hm env r.settle)
  cases hrun : member env r.settle with
  | done m r' =>
      rw [hrun] at ho
      cases ho with
      | done reads shorter =>
          have hle := hset.length_le
          exact .next (by simp) (hset.trans reads) (Or.inl rfl)
            (Nat.lt_of_lt_of_le (shorter rfl) hle)
  | halted reason r' =>
      rw [hrun] at ho
      cases ho with
      | @unexpected mid e t' s' ls' reads token =>
          obtain ⟨ys, hskip, hys⟩ := reads_skipStatement mid.lexemes 0
            (.unexpectedToken e t' s' :: mid.log) [] rfl
          have hfound : (Diagnostic.unexpectedToken e t' s').isAtEnd = false := rfl
          have hmid := reads.trans (.report hfound [] mid.lexemes mid.log)
          refine .next (by simp) ((hset.trans hmid).trans hskip) hys ?_
          have hle := hset.length_le
          have hskiple := hskip.length_le
          by_cases hsame : r.settle.lexemes.length ≤ mid.lexemes.length
          · -- Nothing was taken, so the token at hand is no closing brace and is skipped.
            have he := reads.eq_of_length_le hsame
            rw [he, h]
            exact Nat.lt_of_lt_of_le
              (length_skipStatement_lt hr s (.unexpectedToken e t' s' :: mid.log) ls) hlt
          · exact Nat.lt_of_le_of_lt hskiple (by simp only; omega)
      | silent inBody reads ends =>
          rename_i opened
          have he : skipStatement 0 r'.log r'.lexemes = r' := by
            obtain ⟨rest, log⟩ := r'
            obtain rfl : rest = [] := ends
            rfl
          simp only [he]
          exact .next (by simp) (hset.trans reads) (Or.inr ends) (by rw [ends]; exact Nat.zero_lt_of_lt hlt)
      | eof inBody reads ends =>
          rw [hb] at inBody
          cases inBody
      | unclosed reads ends mem =>
          exact .halted (.unclosed ((hset.trans reads).frame [opening]) ends
            (List.mem_append_left _ mem))
      | exhausted budget =>
          have hle := hset.length_le
          exact .halted (.exhausted (by omega))

/-- What the loop over members leads to. -/
theorem collect_inBody (kind : BodyKind) (opening : Span) {member : Parser α}
    (hm : Orderly n true member) (hb : env.inBody = true) (budget : List Lexeme) :
    ∀ r, r.lexemes.length ≤ budget.length →
      InBody n opening r (collect (bodyTurn kind opening member) budget env r) := by
  -- On the budget: a turn that goes on has used up a lexeme, so the budget lasts for the others.
  induction budget with
  | nil =>
      intro r hr
      rw [collect, bind_run]
      have hstep := bodyTurn_step kind opening hm hb r
      cases hrun : bodyTurn kind opening member env r with
      | halted reason r' =>
          rw [hrun] at hstep
          cases hstep with
          | halted ho => exact ho
      | done t r' =>
          rw [hrun] at hstep
          cases hstep with
          | stop reads closing => exact .done (reads.frame [opening]) closing
          | next ht reads ends shorter =>
              rw [List.length_nil] at hr
              omega
  | cons l budget ih =>
      intro r hr
      rw [List.length_cons] at hr
      rw [collect, bind_run]
      have hstep := bodyTurn_step kind opening hm hb r
      cases hrun : bodyTurn kind opening member env r with
      | halted reason r' =>
          rw [hrun] at hstep
          cases hstep with
          | halted ho => exact ho
      | done t r' =>
          rw [hrun] at hstep
          cases hstep with
          | stop reads closing => exact .done (reads.frame [opening]) closing
          | next ht reads ends shorter =>
              have hrest := ih r' (by omega)
              -- Whatever the other turns lead to, the loop leads to from here.
              have hall : ∀ o, InBody (α := α) n opening r' o → InBody n opening r o := by
                intro o ho
                rcases ends with rfl | hend
                · exact ho.prepend reads
                · exact ho.atEnd reads hend
              cases t with
              | stop => exact absurd rfl ht
              | skip => exact hall _ hrest
              | yield a =>
                  simp only [bind_run]
                  cases hc : collect (bodyTurn kind opening member) budget env r' with
                  | done as r₂ =>
                      rw [hc] at hrest
                      refine hall _ ?_
                      cases hrest with
                      | done reads' closing => exact .done reads' closing
                  | halted reason r₂ =>
                      rw [hc] at hrest
                      refine hall _ ?_
                      cases hrest with
                      | unclosed reads' ends' mem => exact .unclosed reads' ends' mem
                      | exhausted budget' => exact .exhausted budget'

/-- A body closes its brace, whatever stands in it, or the source ends. -/
theorem Orderly.body (kind : BodyKind) {member : Parser α} (hm : Orderly n true member) :
    Orderly n true (body kind member) := by
  intro env r
  rw [body_eq]
  rcases expectMark_bind .leftBrace _ env r with ⟨opening, ls, hset, hrun⟩ | hrun
  · rw [hrun, bind_run]
    have hlt := length_lt_of_settle hset
    have hopen := reads_leftBrace hset
    have hin : InBody n opening ⟨ls, r.settle.log⟩
        (collect (bodyTurn kind opening member) ls { env with inBody := true }
          ⟨ls, r.settle.log⟩) :=
      collect_inBody kind opening hm rfl ls _ (Nat.le_refl _)
    have hrun : inside (Parser.many (bodyTurn kind opening member)) env ⟨ls, r.settle.log⟩ =
        collect (bodyTurn kind opening member) ls { env with inBody := true }
          ⟨ls, r.settle.log⟩ := rfl
    rw [hrun]
    cases hc : collect (bodyTurn kind opening member) ls { env with inBody := true }
        ⟨ls, r.settle.log⟩ with
    | done ms r' =>
        rw [hc] at hin
        cases hin with
        | done reads closing =>
            rename_i s' ls'
            obtain ⟨rest, log⟩ := r'
            obtain rfl : rest = .token (.mark .rightBrace) s' :: ls' := closing
            have hclose := expectMark_run (r := ⟨.token (.mark .rightBrace) s' :: ls', log⟩) env rfl
            simp only [bind_run, hclose]
            have hlast : Reads [opening] ⟨.token (.mark .rightBrace) s' :: ls', log⟩
                ⟨ls', log⟩ [] := .lexeme log (.closing opening s' [])
            refine .done ((hopen.trans reads).trans hlast) fun _ => ?_
            have hle := (reads.trans hlast).length_le
            exact Nat.lt_of_le_of_lt hle hlt
    | halted reason r' =>
        rw [hc] at hin
        cases hin with
        | unclosed reads ends mem => exact .unclosed (hopen.trans reads) ends mem
        | exhausted budget =>
            refine .exhausted (Nat.lt_trans budget ?_)
            exact hlt
  · rw [hrun]
    exact ((Orderly.unexpected _) env r.settle).prepend (reads_settle [] r)

end ProtoSchema.Parser
