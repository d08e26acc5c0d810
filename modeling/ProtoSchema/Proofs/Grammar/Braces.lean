/-
Bodies and blocks.

Both stand between braces.  The members of a body are parsed one by one, and one that does
not parse is skipped; so the loop over them may succeed where the rule derives nothing.
It complains then, or it meets the end of the source and does not succeed after all.  A
block is not parsed, only its braces are counted.
-/
import ProtoSchema.Proofs.Grammar.Language
import ProtoSchema.Proofs.Grammar.Repetition

namespace ProtoSchema.Parser

open Rule (Opens)
open Remainder (Reads)

variable {α : Type} {F G : Follow}

/-! ### Blocks -/

/-- The brace at `s` closes a block in which `depth` further ones are open. -/
def Closes : (depth : Nat) → List Lexeme → Span → List Lexeme → Prop
  | 0, ls, s, rest => Rule.Balanced ls (.token (.mark .rightBrace) s :: rest)
  | depth + 1, ls, s, rest =>
    ∃ s' mid, Rule.Balanced ls (.token (.mark .rightBrace) s' :: mid) ∧ Closes depth mid s rest

namespace Closes

variable {depth : Nat} {ls mid rest : List Lexeme} {s : Span}

theorem plain {t : Token} {s' : Span} (hl : t ≠ .mark .leftBrace) (hr : t ≠ .mark .rightBrace)
    (h : Closes depth ls s rest) : Closes depth (.token t s' :: ls) s rest := by
  cases depth with
  | zero => exact .plain hl hr h
  | succ depth =>
      obtain ⟨s'', mid, hb, hc⟩ := h
      exact ⟨s'', mid, .plain hl hr hb, hc⟩

theorem block {s' s'' : Span} (hb : Rule.Balanced ls (.token (.mark .rightBrace) s' :: mid))
    (h : Closes depth mid s rest) : Closes depth (.token (.mark .leftBrace) s'' :: ls) s rest := by
  cases depth with
  | zero => exact .block hb h
  | succ depth =>
      obtain ⟨s₁, mid', hb', hc⟩ := h
      exact ⟨s₁, mid', .block hb hb', hc⟩

end Closes

/-- A block that is skipped is balanced. -/
theorem closes_of_skipBlock (ls : List Lexeme) :
    ∀ (depth : Nat) (log : List Diagnostic) (s : Span) (r : Remainder), Clean ls →
      skipBlock depth log ls = (some s, r) →
        r.log = log ∧ r.lexemes <:+ ls ∧ Closes depth ls s r.lexemes := by
  induction ls with
  | nil =>
      intro depth log s r _ h
      cases h
  | cons l ls ih =>
      intro depth log s r hc h
      obtain ⟨t, s', rfl⟩ := hc l List.mem_cons_self
      have hsuffix : ls <:+ .token t s' :: ls := List.suffix_cons _ _
      have hc' := hc.of_suffix hsuffix
      by_cases hl : t = .mark .leftBrace
      · subst hl
        obtain ⟨hlog, hsuf, s'', mid, hb, hcl⟩ := ih (depth + 1) log s r hc' h
        exact ⟨hlog, hsuf.trans hsuffix, .block hb hcl⟩
      by_cases hr : t = .mark .rightBrace
      · subst hr
        cases depth with
        | zero =>
            cases h
            exact ⟨rfl, hsuffix, .nil _⟩
        | succ depth =>
            obtain ⟨hlog, hsuf, hcl⟩ := ih depth log s r hc' h
            exact ⟨hlog, hsuf.trans hsuffix, s', ls, .nil _, hcl⟩
      rw [skipBlock_plain hl hr] at h
      obtain ⟨hlog, hsuf, hcl⟩ := ih depth log s r hc' h
      exact ⟨hlog, hsuf.trans hsuffix, .plain hl hr hcl⟩

/-- What is balanced is skipped. -/
theorem skipBlock_of_balanced {ls rest : List Lexeme} (h : Rule.Balanced ls rest) :
    ∀ (depth : Nat) (log : List Diagnostic),
      skipBlock depth log ls = skipBlock depth log rest := by
  induction h with
  | nil => intro depth log; rfl
  | plain hl hr others ih =>
      intro depth log
      rw [skipBlock_plain hl hr, ih depth log]
  | @block s s' ls mid rest inner others ih ih' =>
      intro depth log
      have hopen : skipBlock depth log (.token (.mark .leftBrace) s :: ls) =
          skipBlock (depth + 1) log ls := by
        cases depth <;> rw [skipBlock, if_pos rfl]
      rw [hopen, ih (depth + 1) log, ← ih' depth log]
      rfl

theorem suffix_of_balanced {ls rest : List Lexeme} (h : Rule.Balanced ls rest) : rest <:+ ls := by
  induction h with
  | nil => exact List.suffix_refl _
  | plain hl hr others ih => exact ih.trans (List.suffix_cons _ _)
  | block inner others ih ih' =>
      exact ((ih'.trans (List.suffix_cons _ _)).trans ih).trans (List.suffix_cons _ _)

namespace Means

theorem blockEnd : Means F blockEnd Rule.blockEnd where
  sound := by
    intro env ls log s r hc hrun
    unfold Parser.blockEnd at hrun
    dsimp only at hrun
    cases hskip : skipBlock 0 log ls with
    | mk found mid =>
        rw [hskip] at hrun
        cases found with
        | some s' =>
            cases hrun
            obtain ⟨hlog, hsuf, hcl⟩ := closes_of_skipBlock ls 0 log s r hc hskip
            exact ⟨[], hlog, hsuf, fun _ =>
              ⟨(), [], _, [], ⟨hcl, rfl⟩, Rule.mark_iff.mpr ⟨rfl, rfl⟩, rfl⟩⟩
        | none => exact absurd hrun (unexpected_ne_done _ env mid r s)
  complete := by
    rintro env ls log s ds rest hc ⟨_, _, mid, _, ⟨hb, rfl⟩, hmark, rfl⟩ _
    obtain ⟨rfl, rfl⟩ := Rule.mark_iff.mp hmark
    refine ⟨(List.suffix_cons _ _).trans (suffix_of_balanced hb), by simp, ?_⟩
    unfold Parser.blockEnd
    rw [skipBlock_of_balanced hb]
    rfl

theorem trimmedSource (span : Span) : Means F (trimmedSource span) (Rule.trimmedText span) where
  sound := by
    intro env ls log text r _ hrun
    cases hrun
    exact ⟨[], rfl, List.suffix_refl ls, fun _ => ⟨rfl, rfl, rfl⟩⟩
  complete := by
    rintro env ls log text ds rest _ ⟨rfl, rfl, rfl⟩ _
    exact ⟨List.suffix_refl _, by simp, rfl⟩

theorem aggregate : Means F aggregate Rule.aggregate := by
  refine (expectMark _).seq fun opening => ?_
  refine blockEnd.seq fun closing => ?_
  exact (trimmedSource _).seq fun text => pure _

end Means

/-! ### Bodies -/

/-- A token that may start a member of a body. -/
def startsMember : Follow := fun t? =>
  ∃ t, t? = some t ∧ t ≠ .mark .semicolon ∧ t ≠ .mark .rightBrace

/--
What one turn over the members of a body derives.  If it skips to the end of the source, it
derives nothing, and neither does any turn behind it.
-/
def bodyRule (M : Rule α) : Rule (Turn α) := fun source ls t ds rest =>
  match t with
  | .stop => (∃ s ls', ls = .token (.mark .rightBrace) s :: ls') ∧ ds = [] ∧ rest = ls
  | .skip => (∃ s, ls = .token (.mark .semicolon) s :: rest ∧ ds = []) ∨ ls ≠ [] ∧ rest = []
  | .yield m => M source ls m ds rest

section Members

variable {M : Rule α} {member : Parser α} {n : Nat}

/-- What is skipped behind faults, or at the end of the source. -/
theorem sound_skipStatement {r mid : Remainder} {xs : List Span} (new : List Diagnostic)
    (reads : Reads [] r mid xs) (hfault : ∀ d ∈ new, d.isFault = true)
    (hne : new ≠ [] ∨ mid.lexemes = []) :
    ∃ ds : List Diagnostic,
      (skipStatement 0 (new ++ mid.log) mid.lexemes).log = ds.reverse ++ r.log ∧
      (skipStatement 0 (new ++ mid.log) mid.lexemes).lexemes <:+ r.lexemes ∧
      ((∀ d ∈ ds, d.isFault = false) →
        (skipStatement 0 (new ++ mid.log) mid.lexemes).lexemes = []) := by
  obtain ⟨seg₁, new₁, hseg₁, hlog₁, -, -⟩ := reads
  obtain ⟨ys, ⟨seg₂, new₂, hseg₂, hlog₂, -, -⟩, -⟩ :=
    reads_skipStatement mid.lexemes 0 (new ++ mid.log) [] rfl
  dsimp only at hseg₂ hlog₂
  generalize skipStatement 0 (new ++ mid.log) mid.lexemes = out at hseg₂ hlog₂ ⊢
  refine ⟨(new₂ ++ new ++ new₁).reverse, ?_, ?_, fun hds => ?_⟩
  · rw [hlog₂, hlog₁, List.reverse_reverse]
    simp only [List.append_assoc]
  · exact ⟨seg₁ ++ seg₂, by rw [hseg₁, hseg₂, List.append_assoc]⟩
  · rcases hne with hne | hnil
    · obtain ⟨d, hd⟩ := List.exists_mem_of_ne_nil _ hne
      have hfalse := hds d (by simp [hd])
      rw [hfault d hd] at hfalse
      cases hfalse
    · rw [hnil] at hseg₂
      exact (List.append_eq_nil_iff.mp hseg₂.symm).2

/-- A member that does not parse is complained about, unless the source ends there. -/
theorem sound_skip {env : Surroundings} {r r' : Remainder}
    (ho : Ordered (α := α) n true env r (.halted .mismatch r')) :
    ∃ ds : List Diagnostic, (skipStatement 0 r'.log r'.lexemes).log = ds.reverse ++ r.log ∧
      (skipStatement 0 r'.log r'.lexemes).lexemes <:+ r.lexemes ∧
      ((∀ d ∈ ds, d.isFault = false) → (skipStatement 0 r'.log r'.lexemes).lexemes = []) := by
  cases ho with
  | @unexpected mid e t s ls reads token =>
      exact sound_skipStatement [.unexpectedToken e t s] reads (by simp [Diagnostic.isFault])
        (Or.inl (by simp))
  | silent inBody reads ends => exact sound_skipStatement [] reads (by simp) (Or.inr ends)
  | @eof _ mid e s inBody reads ends =>
      have h := sound_skipStatement [.unexpectedEof e s] reads (by simp [Diagnostic.isFault])
        (Or.inl (by simp))
      rw [ends] at h
      exact h

theorem sound_bodyTurn (kind : BodyKind) (opening : Span) (hm : Sound member M)
    (ho : Orderly n true member) : Sound (bodyTurn kind opening member) (bodyRule M) := by
  intro env ls log t r hc hrun
  cases ls with
  | nil =>
      rw [bodyTurn_nil rfl] at hrun
      cases hrun
  | cons l ls =>
      obtain ⟨t', s, rfl⟩ := hc l List.mem_cons_self
      by_cases hr : t' = .mark .rightBrace
      · subst hr
        rw [bodyTurn_rightBrace rfl] at hrun
        cases hrun
        exact ⟨[], rfl, List.suffix_refl _, fun _ => ⟨⟨s, ls, rfl⟩, rfl, rfl⟩⟩
      by_cases hs : t' = .mark .semicolon
      · subst hs
        rw [bodyTurn_semicolon rfl] at hrun
        cases hrun
        exact ⟨[], rfl, List.suffix_cons _ _, fun _ => Or.inl ⟨s, rfl, rfl⟩⟩
      rw [bodyTurn_member rfl hr hs, hc.settle] at hrun
      have hord := ho env ⟨.token t' s :: ls, log⟩
      cases hmem : member env ⟨.token t' s :: ls, log⟩ with
      | done m r' =>
          rw [hmem] at hrun
          cases hrun
          obtain ⟨ds, hlog, hsuf, hM⟩ := hm env _ log m r hc hmem
          exact ⟨ds, hlog, hsuf, hM⟩
      | halted reason r' =>
          rw [hmem] at hrun hord
          cases reason with
          -- Without a fault among the reports the source has ended.
          | mismatch =>
              cases hrun
              obtain ⟨ds, hlog, hsuf, hnil⟩ := sound_skip hord
              exact ⟨ds, hlog, hsuf, fun hds => Or.inr ⟨by simp, hnil hds⟩⟩
          | unclosed => cases hrun
          | exhausted => cases hrun

theorem members_of_loop {source : List Char} {ls rest : List Lexeme} {as : List α}
    {ds : List Diagnostic} (hM : Opens startsMember anything M)
    (h : Loop (bodyRule M) source ls as ds rest) :
    Rule.Members M source ls as ds rest := by
  induction h with
  | stop last =>
      obtain ⟨-, rfl, rfl⟩ := last
      exact .nil _
  | yield first others ih => exact .member first ih
  | skip first others ih =>
      rcases first with ⟨s, rfl, rfl⟩ | ⟨-, rfl⟩
      · exact .semicolon ih
      · -- Behind the end of the source there is no turn.
        cases others with
        | stop last =>
            obtain ⟨⟨s, ls', heq⟩, -⟩ := last
            cases heq
        | skip first' _ =>
            rcases first' with ⟨s, heq, -⟩ | ⟨hne, -⟩
            · cases heq
            · exact absurd rfl hne
        | yield first' _ =>
            obtain ⟨t, ht, -⟩ := hM _ _ _ _ _ first' trivial
            cases ht

/-! ### Members one by one -/

section Collects

variable {turn : Parser (Turn α)} {env : Surroundings} {ls mid rest : List Lexeme}
  {log log₁ log₂ : List Diagnostic} {as as' : List α}

/-- What the turns of a loop collect on the way from some lexemes to those behind them. -/
def Collects (turn : Parser (Turn α)) (env : Surroundings) (ls : List Lexeme)
    (log : List Diagnostic) (as : List α) (rest : List Lexeme) (log' : List Diagnostic) : Prop :=
  ∀ budget : List Lexeme, ls.length ≤ budget.length → ∃ budget' : List Lexeme,
    rest.length ≤ budget'.length ∧ ∀ bs r, collect turn budget' env ⟨rest, log'⟩ = .done bs r →
      collect turn budget env ⟨ls, log⟩ = .done (as ++ bs) r

namespace Collects

theorem refl (ls : List Lexeme) (log : List Diagnostic) : Collects turn env ls log [] ls log :=
  fun budget hlen => ⟨budget, hlen, fun _ _ h => h⟩

theorem trans (h₁ : Collects turn env ls log as mid log₁)
    (h₂ : Collects turn env mid log₁ as' rest log₂) :
    Collects turn env ls log (as ++ as') rest log₂ := by
  intro budget hlen
  obtain ⟨budget₁, hlen₁, hstep₁⟩ := h₁ budget hlen
  obtain ⟨budget₂, hlen₂, hstep₂⟩ := h₂ budget₁ hlen₁
  refine ⟨budget₂, hlen₂, fun bs r h => ?_⟩
  rw [List.append_assoc]
  exact hstep₁ _ r (hstep₂ bs r h)

theorem skip (h : turn env ⟨ls, log⟩ = .done .skip ⟨rest, log₁⟩) (hlt : rest.length < ls.length) :
    Collects turn env ls log [] rest log₁ := by
  intro budget hlen
  cases budget with
  | nil =>
      rw [List.length_nil] at hlen
      omega
  | cons l budget =>
      rw [List.length_cons] at hlen
      exact ⟨budget, by omega, fun bs r hrest => (collect_skip h).trans hrest⟩

theorem yield {a : α} (h : turn env ⟨ls, log⟩ = .done (.yield a) ⟨rest, log₁⟩)
    (hlt : rest.length < ls.length) : Collects turn env ls log [a] rest log₁ := by
  intro budget hlen
  cases budget with
  | nil =>
      rw [List.length_nil] at hlen
      omega
  | cons l budget =>
      rw [List.length_cons] at hlen
      exact ⟨budget, by omega, fun bs r hrest => collect_yield h hrest⟩

/-- The whole loop, if it stops there. -/
theorem stop (h : Collects turn env ls log as rest log₁)
    (hstop : turn env ⟨rest, log₁⟩ = .done .stop ⟨rest, log₁⟩) :
    many turn env ⟨ls, log⟩ = .done as ⟨rest, log₁⟩ := by
  obtain ⟨budget, -, hstep⟩ := h ls (Nat.le_refl _)
  have hall := hstep [] _ (collect_stop hstop)
  rw [List.append_nil] at hall
  exact hall

end Collects

end Collects

/-- Members are collected, whatever stands behind them. -/
theorem collects_members {env : Surroundings} {ls rest : List Lexeme} {as : List α}
    {ds : List Diagnostic} (hM : Opens startsMember anything M)
    (hread : ∀ ls log a ds rest, Clean ls → ls.length ≤ n → M env.source ls a ds rest →
      (rest <:+ ls ∧ rest.length < ls.length) ∧ (∀ d ∈ ds, d.isFault = false) ∧
        member env ⟨ls, log⟩ = .done a ⟨rest, ds.reverse ++ log⟩)
    (h : Rule.Members M env.source ls as ds rest) (hc : Clean ls) (hlen : ls.length ≤ n) :
    rest <:+ ls ∧ (∀ d ∈ ds, d.isFault = false) ∧ ∀ kind opening log,
      Collects (bodyTurn kind opening member) env ls log as rest (ds.reverse ++ log) := by
  induction h with
  | nil ls => exact ⟨List.suffix_refl _, by simp, fun _ _ log => .refl ls log⟩
  | @semicolon ls rest s as ds others ih =>
      have hsuffix : ls <:+ .token (.mark .semicolon) s :: ls := List.suffix_cons _ _
      rw [List.length_cons] at hlen
      obtain ⟨hsuf, hds, hcollects⟩ := ih (hc.of_suffix hsuffix) (by omega)
      refine ⟨hsuf.trans hsuffix, hds, fun kind opening log => ?_⟩
      have hturn : bodyTurn kind opening member env ⟨.token (.mark .semicolon) s :: ls, log⟩ =
          .done .skip ⟨ls, log⟩ := bodyTurn_semicolon rfl
      exact (Collects.skip hturn (Nat.lt_succ_self _)).trans (hcollects kind opening log)
  | @member ls mid rest m as ds₁ ds₂ first others ih =>
      obtain ⟨⟨hsuf₁, hlt⟩, hds₁, -⟩ := hread ls [] m ds₁ mid hc hlen first
      obtain ⟨hsuf₂, hds₂, hcollects⟩ := ih (hc.of_suffix hsuf₁) (by omega)
      obtain ⟨t, ht, hs, hr⟩ := hM _ _ _ _ _ first trivial
      obtain ⟨s, tail, rfl⟩ := exists_of_nextToken? ht
      refine ⟨hsuf₂.trans hsuf₁, List.forall_mem_append.mpr ⟨hds₁, hds₂⟩,
        fun kind opening log => ?_⟩
      obtain ⟨-, -, hrun⟩ := hread _ log m ds₁ mid hc hlen first
      have hturn : bodyTurn kind opening member env ⟨.token t s :: tail, log⟩ =
          .done (.yield m) ⟨mid, ds₁.reverse ++ log⟩ := by
        rw [bodyTurn_member rfl hr hs, hc.settle, hrun]
      rw [List.reverse_append, List.append_assoc]
      exact (Collects.yield hturn hlt).trans (hcollects kind opening _)

theorem complete_members (kind : BodyKind) (opening : Span) (hm : Means anything member M)
    (ho : Orderly n true member) (hM : Opens startsMember anything M) :
    ∀ env ls log as ds rest, Clean ls → Rule.Members M env.source ls as ds rest →
      nextToken? rest = some (.mark .rightBrace) →
      rest <:+ ls ∧ (∀ d ∈ ds, d.isFault = false) ∧
        many (bodyTurn kind opening member) env ⟨ls, log⟩ =
          .done as ⟨rest, ds.reverse ++ log⟩ := by
  intro env ls log as ds rest hc h hrest
  have hread : ∀ ls' log' a ds' rest', Clean ls' → ls'.length ≤ ls.length →
      M env.source ls' a ds' rest' →
      (rest' <:+ ls' ∧ rest'.length < ls'.length) ∧ (∀ d ∈ ds', d.isFault = false) ∧
        member env ⟨ls', log'⟩ = .done a ⟨rest', ds'.reverse ++ log'⟩ := by
    intro ls' log' a ds' rest' hc' _ hM'
    obtain ⟨hsuf, hds, hrun⟩ := hm.complete env ls' log' a ds' rest' hc' hM' trivial
    have hord := ho env ⟨ls', log'⟩
    rw [hrun] at hord
    cases hord with
    | done reads shorter => exact ⟨⟨hsuf, shorter rfl⟩, hds, hrun⟩
  obtain ⟨hsuf, hds, hcollects⟩ := collects_members hM hread h hc (Nat.le_refl _)
  obtain ⟨s, tail, rfl⟩ := exists_of_nextToken? hrest
  exact ⟨hsuf, hds, (hcollects kind opening log).stop (bodyTurn_rightBrace rfl)⟩

/-- A body is its members, if none of them can be mistaken for the end or for nothing. -/
theorem Means.body (kind : BodyKind) (hm : Means anything member M) (ho : Orderly n true member)
    (hM : Opens startsMember anything M) : Means F (body kind member) (Rule.body M) := by
  rw [body_eq]
  refine (expectMark _).seq fun opening => ?_
  have hloop : Means (· = some (.mark .rightBrace)) (inside (many (bodyTurn kind opening member)))
      (fun source => Rule.Members M source) := by
    refine ⟨?_, ?_⟩
    · intro env ls log as r hc hrun
      obtain ⟨ds, hlog, hsuf, hL⟩ := sound_collect (sound_bodyTurn kind opening hm.sound ho) ls
        { env with inBody := true } ls log as r hc hrun
      exact ⟨ds, hlog, hsuf, fun hds => members_of_loop hM (hL hds)⟩
    · intro env ls log as ds rest hc h hrest
      exact complete_members kind opening hm ho hM { env with inBody := true } ls log as ds rest hc
        h hrest
  refine hloop.bind (fun members => ?_) fun members => ?_
  · exact (expectMark _).seq fun closing => pure _
  · exact .first (.mark rfl)

end Members

end ProtoSchema.Parser
