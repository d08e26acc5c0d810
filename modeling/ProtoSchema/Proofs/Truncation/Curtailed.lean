/-
What becomes of a parse when the source ends early.

Take a parse that succeeds and reports nothing, and cut its lexemes somewhere.  The same parser
is run on the front part.  If what it took from the whole lies in the front part, it takes the
same from there.  Otherwise it reads on to the end.  Then it may find that it can do without what is
missing, or it halts; but within a body it says nothing about the grammar, since the end of the
source is for the body to report.

`Curtails` says this of a parser.  A sequence has the property because its parts have it, but
the second part may start where the source has ended already, and with any value of the first;
so what a parser does there is a property of its own.
-/
import ProtoSchema.Proofs.Grammar.Repetition
import ProtoSchema.Proofs.Parsing.Productions
import ProtoSchema.Proofs.Recovery.Retold
import ProtoSchema.Proofs.Scanning.Places

namespace ProtoSchema

/-- Diagnostics that are not about the grammar. -/
def Incidental (ds : List Diagnostic) : Prop := ∀ d ∈ ds, d.category ≠ .grammatical

theorem Incidental.nil : Incidental [] := fun _ hd => absurd hd List.not_mem_nil

theorem Incidental.append {ds es : List Diagnostic} (hd : Incidental ds) (he : Incidental es) :
    Incidental (ds ++ es) := List.forall_mem_append.mpr ⟨hd, he⟩

/-- A source, a front part of it, and the tokens of the source that stand behind that part. -/
structure Cut where
  source : List Char
  pre : List Char
  back : List Lexeme
  clean : Clean back

namespace Cut

/-- Tokens before the cut.  What stands between two of them is the same in both texts. -/
structure Keeps (w : Cut) (front : List Lexeme) : Prop where
  clean : Clean front
  text : ∀ a ∈ spans front, ∀ b ∈ spans front,
    Text.slice w.source ⟨a.stop, b.start⟩ = Text.slice w.pre ⟨a.stop, b.start⟩

variable {w : Cut} {front rest : List Lexeme}

theorem Keeps.of_sublist (h : w.Keeps front) (hs : rest.Sublist front) : w.Keeps rest where
  clean l hl := h.clean l (hs.subset hl)
  text a ha b hb := h.text a ((hs.filterMap _).subset ha) b ((hs.filterMap _).subset hb)

theorem Keeps.of_suffix (h : w.Keeps front) (hs : rest <:+ front) : w.Keeps rest :=
  h.of_sublist hs.sublist

theorem Keeps.all (h : w.Keeps front) : Clean (front ++ w.back) := h.clean.append w.clean

end Cut

namespace Parser

open Remainder

variable {α β : Type} {log log₁ : List Diagnostic} {o : Outcome α}

/-- The outcome of a parser that has come to the end of the source within a body. -/
inductive Stuck (log : List Diagnostic) : Outcome α → Prop
  | done {a : α} {new : List Diagnostic} (quiet : Incidental new) :
      Stuck log (.done a ⟨[], new ++ log⟩)
  | mismatch {new : List Diagnostic} (quiet : Incidental new) :
      Stuck log (.halted .mismatch ⟨[], new ++ log⟩)

namespace Stuck

theorem refl (a : α) (log : List Diagnostic) : Stuck log (.done a ⟨[], log⟩) :=
  @done α log a [] .nil

theorem silent (log : List Diagnostic) : Stuck log (.halted .mismatch ⟨[], log⟩ : Outcome α) :=
  @mismatch α log [] .nil

theorem prepend {new : List Diagnostic} (hq : Incidental new) (h : Stuck (new ++ log) o) :
    Stuck log o := by
  cases h with
  | done quiet =>
      rw [← List.append_assoc]
      exact .done (quiet.append hq)
  | mismatch quiet =>
      rw [← List.append_assoc]
      exact .mismatch (quiet.append hq)

end Stuck

/-- What a parser does at the end of the source, within a body. -/
def StuckAtEnd (p : Parser α) : Prop :=
  ∀ env log, env.inBody = true → Stuck log (p env ⟨[], log⟩)

/-- A parser that takes lexemes from the front and adds to the log. -/
def Grows (p : Parser α) : Prop :=
  ∀ env r a r', p env r = .done a r' → r'.lexemes <:+ r.lexemes ∧ r.log <:+ r'.log

theorem Grows.of_reads {r r' : Remainder} {xs ys : List Span} (h : Reads xs r r' ys) :
    r'.lexemes <:+ r.lexemes ∧ r.log <:+ r'.log := by
  obtain ⟨seg, new, hseg, hnew, -⟩ := h
  exact ⟨⟨seg, hseg.symm⟩, ⟨new, hnew.symm⟩⟩

/-- What a parser does with the tokens before a cut, if it leaves `rest` of all tokens. -/
inductive Halves (w : Cut) (front : List Lexeme) (inBody : Bool) (log : List Diagnostic) (a : α)
    (rest : List Lexeme) (o : Outcome α) : Prop
  | before {kept : List Lexeme} (suffix : kept <:+ front) (left : rest = kept ++ w.back)
      (same : o = .done a ⟨kept, log⟩)
  | behind (suffix : rest <:+ w.back) (stuck : inBody = true → Stuck log o)

/-- A parser that does before a cut what it does without it, or gets stuck there. -/
structure Curtails (p : Parser α) : Prop where
  grows : Grows p
  ends : StuckAtEnd p
  halves : ∀ (w : Cut) inBody front log a rest, w.Keeps front →
    p ⟨w.source, inBody⟩ ⟨front ++ w.back, log⟩ = .done a ⟨rest, log⟩ →
    Halves w front inBody log a rest (p ⟨w.pre, inBody⟩ ⟨front, log⟩)

/-! ### Sequences -/

theorem bind_halted {p : Parser α} {f : α → Parser β} {env : Surroundings} {r r' : Remainder}
    {reason : Halt} (h : p env r = .halted reason r') : (p >>= f) env r = .halted reason r' := by
  rw [bind_run, h]

/-- What comes after a parser that is stuck is stuck. -/
theorem Stuck.bind {p : Parser α} {f : α → Parser β} {env : Surroundings} {r : Remainder}
    (hin : env.inBody = true) (hp : Stuck log (p env r)) (hf : ∀ a, StuckAtEnd (f a)) :
    Stuck log ((p >>= f) env r) := by
  cases hrun : p env r with
  | done a r' =>
      rw [hrun] at hp
      rw [bind_done hrun]
      cases hp with
      | done quiet => exact (hf a env _ hin).prepend quiet
  | halted reason r' =>
      rw [hrun] at hp
      rw [bind_halted hrun]
      cases hp with
      | mismatch quiet => exact .mismatch quiet

theorem Grows.bind {p : Parser α} {f : α → Parser β} (hp : Grows p) (hf : ∀ a, Grows (f a)) :
    Grows (p >>= f) := by
  intro env r b r' h
  obtain ⟨a, mid, hrun, hrest⟩ := done_of_bind h
  obtain ⟨hs₁, hl₁⟩ := hp env r a mid hrun
  obtain ⟨hs₂, hl₂⟩ := hf a env mid b r' hrest
  exact ⟨hs₂.trans hs₁, hl₁.trans hl₂⟩

/-- A sequence that reports nothing has parts that report nothing. -/
theorem Grows.quiet_bind {p : Parser α} {f : α → Parser β} (hp : Grows p) (hf : ∀ a, Grows (f a))
    {env : Surroundings} {ls rest : List Lexeme} {b : β}
    (h : (p >>= f) env ⟨ls, log⟩ = .done b ⟨rest, log⟩) :
    ∃ a mid, p env ⟨ls, log⟩ = .done a ⟨mid, log⟩ ∧ f a env ⟨mid, log⟩ = .done b ⟨rest, log⟩ ∧
      mid <:+ ls ∧ rest <:+ mid := by
  obtain ⟨a, ⟨mid, log'⟩, hrun, hrest⟩ := done_of_bind h
  obtain ⟨hs₁, hl₁⟩ := hp env _ a _ hrun
  obtain ⟨hs₂, hl₂⟩ := hf a env _ b _ hrest
  obtain rfl : log' = log := hl₂.eq_of_length_le hl₁.length_le
  exact ⟨a, mid, hrun, hrest, hs₁, hs₂⟩

/-- A cut behind all that was read so far. -/
theorem Halves.of_nil {p : Parser α} (hg : Grows p) (he : StuckAtEnd p) {w : Cut} {inBody : Bool}
    {a : α} {rest : List Lexeme}
    (h : p ⟨w.source, inBody⟩ ⟨[] ++ w.back, log⟩ = .done a ⟨rest, log⟩) :
    Halves w [] inBody log a rest (p ⟨w.pre, inBody⟩ ⟨[], log⟩) :=
  .behind (hg _ _ _ _ h).1 fun hin => he _ log hin

namespace Curtails

theorem pure (a : α) : Curtails (Pure.pure a) where
  grows := by
    rintro env r _ _ ⟨⟩
    exact ⟨List.suffix_refl _, List.suffix_refl _⟩
  ends := fun _ log _ => .refl a log
  halves := by
    rintro w inBody front log _ _ _ ⟨⟩
    exact .before (List.suffix_refl front) rfl rfl

theorem bind {p : Parser α} {f : α → Parser β} (hp : Curtails p) (hf : ∀ a, Curtails (f a)) :
    Curtails (p >>= f) where
  grows := hp.grows.bind fun a => (hf a).grows
  ends := fun env log hin => (hp.ends env log hin).bind hin fun a => (hf a).ends
  halves := by
    intro w inBody front log b rest hk hrun
    obtain ⟨a, mid, hfirst, hsecond, -, hsuf⟩ := hp.grows.quiet_bind (fun a => (hf a).grows) hrun
    cases hp.halves w inBody front log a mid hk hfirst with
    | before suffix left same =>
        subst left
        rw [bind_done same]
        cases (hf a).halves w inBody _ log b rest (hk.of_suffix suffix) hsecond with
        | before suffix' left' same' => exact .before (suffix'.trans suffix) left' same'
        | behind suffix' stuck => exact .behind suffix' stuck
    | behind suffix stuck =>
        exact .behind (hsuf.trans suffix) fun hin => (stuck hin).bind hin fun a => (hf a).ends

theorem map {p : Parser α} (f : α → β) (hp : Curtails p) : Curtails (f <$> p) := by
  rw [← bind_pure_comp]
  exact bind hp fun a => pure (f a)

/-! ### Single tokens -/

theorem peek : Curtails peek where
  grows := by
    intro env r t? r' h
    rw [peek_run] at h
    obtain ⟨-, rfl⟩ := Outcome.done.inj h
    exact Grows.of_reads (reads_settle [] r)
  ends := by
    intro env log _
    rw [peek_run]
    exact .refl none log
  halves := by
    intro w inBody front log t? rest hk hrun
    rw [peek_run] at hrun
    obtain ⟨rfl, hrest⟩ := Outcome.done.inj hrun
    rw [hk.all.settle] at hrest
    obtain ⟨rfl, -⟩ := Remainder.mk.inj hrest
    rw [peek_run, hk.clean.settle]
    cases front with
    | nil => exact .behind (List.suffix_refl _) fun _ => .refl _ log
    | cons l front =>
        obtain ⟨t, s, rfl⟩ := hk.clean l List.mem_cons_self
        exact .before (List.suffix_refl _) rfl rfl

theorem peekKeyword : Curtails peekKeyword := by
  unfold Parser.peekKeyword
  refine bind peek fun t? => ?_
  split
  · exact pure _
  · exact pure _

theorem accept? (want : Token → Span → Option α) : Curtails (accept? want) := by
  have hgrows : Grows (Parser.accept? want) := by
    intro env r found r' h
    have hset := Grows.of_reads (reads_settle [] r)
    rcases settle_lexemes r with hs | ⟨t, s, ls, hs⟩
    · rw [accept?_run_nil want env hs] at h
      obtain ⟨-, rfl⟩ := Outcome.done.inj h
      exact hset
    · cases hw : want t s with
      | none =>
          rw [accept?_run_none env hs hw] at h
          obtain ⟨-, rfl⟩ := Outcome.done.inj h
          exact hset
      | some a =>
          rw [accept?_run_some env hs hw] at h
          obtain ⟨-, rfl⟩ := Outcome.done.inj h
          rw [hs] at hset
          exact ⟨(List.suffix_cons _ _).trans hset.1, hset.2⟩
  have hends : StuckAtEnd (Parser.accept? want) := by
    intro env log _
    rw [accept?_run_nil want env rfl]
    exact .refl none log
  refine ⟨hgrows, hends, fun w inBody front log found rest hk hrun => ?_⟩
  cases front with
  | nil => exact .of_nil hgrows hends hrun
  | cons l front =>
      obtain ⟨t, s, rfl⟩ := hk.clean l List.mem_cons_self
      rw [List.cons_append] at hrun
      cases hw : want t s with
      | none =>
          rw [accept?_run_none _ rfl hw] at hrun ⊢
          obtain ⟨rfl, hrest⟩ := Outcome.done.inj hrun
          obtain ⟨rfl, -⟩ := Remainder.mk.inj hrest
          exact .before (List.suffix_refl _) rfl rfl
      | some a =>
          rw [accept?_run_some _ rfl hw] at hrun ⊢
          obtain ⟨rfl, hrest⟩ := Outcome.done.inj hrun
          obtain ⟨rfl, -⟩ := Remainder.mk.inj hrest
          exact .before (List.suffix_cons _ _) rfl rfl

theorem unexpected (e : Expectation) : Curtails (unexpected e : Parser α) := by
  refine ⟨fun env r a r' h => absurd h (unexpected_ne_done e env r r' a), fun env log hin => ?_,
    fun w inBody front log a rest hk h => absurd h (unexpected_ne_done _ _ _ _ _)⟩
  rw [unexpected_run_nil e env rfl, if_pos hin]
  exact .silent log

theorem require (e : Expectation) (want : Token → Span → Option α) : Curtails (require e want) := by
  unfold Parser.require
  refine bind (accept? want) fun found => ?_
  split
  · exact pure _
  · exact unexpected e

theorem acceptMark? (p : Punctuation) : Curtails (acceptMark? p) := accept? _

theorem expectMark (p : Punctuation) : Curtails (expectMark p) := by
  rw [expectMark_eq]
  exact require _ _

theorem acceptKeyword? (k : Keyword) : Curtails (acceptKeyword? k) := accept? _

theorem expectKeyword (k : Keyword) : Curtails (expectKeyword k) := by
  rw [expectKeyword_eq]
  exact require _ _

/-- A diagnostic is reported in no parse that reports nothing. -/
theorem report {d : Diagnostic} (hd : d.category ≠ .grammatical) : Curtails (report d) where
  grows := by
    rintro env r _ _ ⟨⟩
    exact ⟨List.suffix_refl _, List.suffix_cons _ _⟩
  ends := fun env log _ => @Stuck.done Unit log () [d] (List.forall_mem_singleton.mpr hd)
  halves := by
    intro w inBody front log u rest hk hrun
    have hlog : d :: log = log := congrArg Remainder.log (Outcome.done.inj hrun).2
    exact absurd hlog (List.cons_ne_self d log)

end Curtails

/-! ### Loops -/

section Loops

variable {turn : Parser (Turn α)}

theorem collect_halted {env : Surroundings} {r r' : Remainder} {reason : Halt}
    (h : turn env r = .halted reason r') (budget : List Lexeme) :
    collect turn budget env r = .halted reason r' := by
  cases budget <;> exact bind_halted h

/-- Where no lexeme is left, a loop takes its last turn. -/
theorem StuckAtEnd.collect (he : StuckAtEnd turn) (hp : Progressive turn) (budget : List Lexeme) :
    StuckAtEnd (collect turn budget) := by
  intro env log hin
  have h := he env log hin
  cases hrun : turn env ⟨[], log⟩ with
  | done t r =>
      rw [hrun] at h
      rcases hp env _ t r hrun with rfl | hlt
      · rw [collect_stop hrun]
        cases h with
        | done quiet => exact .done quiet
      · exact absurd hlt (Nat.not_lt_zero _)
  | halted reason r =>
      rw [hrun] at h
      rw [collect_halted hrun]
      cases h with
      | mismatch quiet => exact .mismatch quiet

/-- A loop with a turn that comes to the end of the source. -/
theorem Stuck.collect (he : StuckAtEnd turn) (hp : Progressive turn) {env : Surroundings}
    (hin : env.inBody = true) {r : Remainder} {budget : List Lexeme}
    (hlen : r.lexemes.length ≤ budget.length) (h : Stuck log (turn env r)) :
    Stuck log (Parser.collect turn budget env r) := by
  -- A turn that is stuck has nothing left to read, and so have the turns behind it.
  cases hrun : turn env r with
  | halted reason r' =>
      rw [hrun] at h
      rw [collect_halted hrun]
      cases h with
      | mismatch quiet => exact .mismatch quiet
  | done t r' =>
      rw [hrun] at h
      have hprogress := hp env r t r' hrun
      cases h with
      | done quiet =>
          cases budget with
          | nil =>
              rw [List.length_nil] at hlen
              rcases hprogress with rfl | hlt
              · rw [collect_stop hrun]
                exact .done quiet
              · omega
          | cons l budget =>
              have hrest := he.collect hp budget env
              cases t with
              | stop =>
                  rw [collect_stop hrun]
                  exact .done quiet
              | skip =>
                  rw [collect_skip hrun]
                  exact (hrest _ hin).prepend quiet
              | yield a =>
                  rw [Parser.collect, bind_done hrun]
                  refine Stuck.prepend quiet ((hrest _ hin).bind hin fun as => ?_)
                  exact (Curtails.pure _).ends

theorem Grows.collect (hg : Grows turn) (budget : List Lexeme) : Grows (collect turn budget) := by
  induction budget with
  | nil =>
      refine hg.bind fun t => ?_
      split
      · exact (Curtails.pure _).grows
      · exact fun env r a r' h => by cases h
  | cons l budget ih =>
      refine hg.bind fun t => ?_
      split
      · exact (Curtails.pure _).grows
      · exact ih
      · exact ih.bind fun as => (Curtails.pure _).grows

/-- A turn that stays before the cut, or one that does not. -/
theorem halves_turn (ht : Curtails turn) (hp : Progressive turn) {w : Cut} {inBody : Bool}
    {front rest : List Lexeme} {t : Turn α} (hk : w.Keeps front)
    (hrun : turn ⟨w.source, inBody⟩ ⟨front ++ w.back, log⟩ = .done t ⟨rest, log⟩) :
    (∃ kept, kept <:+ front ∧ rest = kept ++ w.back ∧
      turn ⟨w.pre, inBody⟩ ⟨front, log⟩ = .done t ⟨kept, log⟩ ∧
        (t = .stop ∨ kept.length < front.length)) ∨
    rest <:+ w.back ∧ (inBody = true → ∀ budget, front.length ≤ budget.length →
      Stuck log (Parser.collect turn budget ⟨w.pre, inBody⟩ ⟨front, log⟩)) := by
  cases ht.halves w inBody front log t rest hk hrun with
  | before suffix left same => exact .inl ⟨_, suffix, left, same, hp _ _ _ _ same⟩
  | behind suffix stuck =>
      exact .inr ⟨suffix, fun hin budget hlen => (stuck hin).collect ht.ends hp hin hlen⟩

/-- What a loop does behind one of its turns. -/
theorem Grows.goOn {loop : Parser (List α)} (hloop : Grows loop) (t : Turn α) :
    Grows (match t with
      | .stop => (Pure.pure [] : Parser (List α))
      | .skip => loop
      | .yield a => do
        let as ← loop
        Pure.pure (a :: as)) := by
  split
  · exact (Curtails.pure _).grows
  · exact hloop
  · exact hloop.bind fun as => (Curtails.pure _).grows

theorem Halves.collect (ht : Curtails turn) (hp : Progressive turn) (w : Cut) (inBody : Bool)
    (log : List Diagnostic) (budget : List Lexeme) :
    ∀ budget' front as rest, front.length ≤ budget'.length → w.Keeps front →
      collect turn budget ⟨w.source, inBody⟩ ⟨front ++ w.back, log⟩ = .done as ⟨rest, log⟩ →
      Halves w front inBody log as rest (collect turn budget' ⟨w.pre, inBody⟩ ⟨front, log⟩) := by
  -- The two loops have budgets of their own; the induction is on the one of the whole.
  induction budget with
  | nil =>
      intro budget' front as rest hlen hk hrun
      obtain ⟨t, ⟨mid, log'⟩, hturn, hrest⟩ := done_of_bind hrun
      cases t with
      | stop =>
          obtain ⟨rfl, hmid⟩ := Outcome.done.inj hrest
          cases hmid
          rcases halves_turn ht hp hk hturn with ⟨kept, hsuf, hleft, hsame, -⟩ | ⟨hsuf, hstuck⟩
          · exact .before hsuf hleft (collect_stop hsame)
          · exact .behind hsuf fun hin => hstuck hin budget' hlen
      | skip => cases hrest
      | yield a => cases hrest
  | cons l budget ih =>
      intro budget' front as rest hlen hk hrun
      obtain ⟨t, mid, hturn, hrest, -, hsuf⟩ :=
        ht.grows.quiet_bind (ht.grows.collect budget).goOn hrun
      rcases halves_turn ht hp hk hturn with ⟨kept, hkept, rfl, hsame, hprogress⟩ | ⟨hback, hstuck⟩
      · cases t with
        | stop =>
            obtain ⟨rfl, hmid⟩ := Outcome.done.inj hrest
            obtain ⟨rfl, -⟩ := Remainder.mk.inj hmid
            exact .before hkept rfl (collect_stop hsame)
        | skip =>
            have hlt : kept.length < front.length := hprogress.resolve_left (by simp)
            have hpos : 0 < budget'.length := by omega
            obtain ⟨l', budget', rfl⟩ := List.exists_cons_of_length_pos hpos
            rw [collect_skip hsame]
            rw [List.length_cons] at hlen
            cases ih budget' kept as rest (by omega) (hk.of_suffix hkept) hrest with
            | before suffix left same => exact .before (suffix.trans hkept) left same
            | behind suffix stuck => exact .behind suffix stuck
        | yield a =>
            have hlt : kept.length < front.length := hprogress.resolve_left (by simp)
            have hpos : 0 < budget'.length := by omega
            obtain ⟨l', budget', rfl⟩ := List.exists_cons_of_length_pos hpos
            rw [List.length_cons] at hlen
            obtain ⟨as, mid, hcollect, hpure, -, -⟩ :=
              (ht.grows.collect budget).quiet_bind (fun as => (Curtails.pure (a :: as)).grows) hrest
            obtain ⟨rfl, hmid⟩ := Outcome.done.inj hpure
            obtain ⟨rfl, -⟩ := Remainder.mk.inj hmid
            rw [Parser.collect, bind_done hsame]
            cases ih budget' kept as mid (by omega) (hk.of_suffix hkept) hcollect with
            | before suffix left same =>
                exact .before (suffix.trans hkept) left (bind_done same)
            | behind suffix stuck =>
                exact .behind suffix fun hin => (stuck hin).bind hin fun as => (Curtails.pure _).ends
      · exact .behind (hsuf.trans hback) fun hin => hstuck hin budget' hlen

end Loops

namespace Curtails

theorem many {turn : Parser (Turn α)} (ht : Curtails turn) (hp : Progressive turn) :
    Curtails (many turn) where
  grows := fun env r => ht.grows.collect r.lexemes env r
  ends := fun env log => ht.ends.collect hp [] env log
  halves := fun w inBody front log as rest hk =>
    Halves.collect ht hp w inBody log _ front front as rest (Nat.le_refl _) hk

end Curtails

/-! ### Values that are remarked on -/

theorem Grows.report (d : Diagnostic) : Grows (report d) := by
  rintro env r _ _ ⟨⟩
  exact ⟨List.suffix_refl _, List.suffix_cons _ _⟩

theorem require_run {want : Token → Span → Option α} {e : Expectation} {env : Surroundings}
    {t : Token} {s : Span} {ls : List Lexeme} {a : α} (hw : want t s = some a) :
    require e want env ⟨.token t s :: ls, log⟩ = .done a ⟨ls, log⟩ := by
  rw [require, bind_done (accept?_run_some env rfl hw)]
  rfl

theorem require_run_nil (want : Token → Span → Option α) (e : Expectation) {env : Surroundings}
    (hin : env.inBody = true) : require e want env ⟨[], log⟩ = .halted .mismatch ⟨[], log⟩ := by
  rw [require, bind_done (accept?_run_nil want env rfl)]
  exact (unexpected_run_nil e env rfl).trans (if_pos hin)

/-- A token that was taken is a wanted one. -/
theorem exists_of_require {want : Token → Span → Option α} {e : Expectation} {env : Surroundings}
    {t : Token} {s : Span} {ls : List Lexeme} {a : α} {r : Remainder}
    (h : require e want env ⟨.token t s :: ls, log⟩ = .done a r) :
    want t s = some a ∧ r = ⟨ls, log⟩ := by
  cases hw : want t s with
  | some b =>
      rw [require_run hw] at h
      obtain ⟨rfl, rfl⟩ := Outcome.done.inj h
      exact ⟨rfl, rfl⟩
  | none =>
      rw [require, bind_done (accept?_run_none env rfl hw)] at h
      have hset : (settle ⟨.token t s :: ls, log⟩).lexemes = .token t s :: ls := rfl
      have hrun : (Parser.unexpected e : Parser α) env _ = _ := unexpected_run_token e env hset
      cases hrun.symm.trans h

namespace Curtails

/--
A token that must be there, and a remark on it.  The remark may be about the grammar, since where
the source has ended there is no token to remark on.
-/
theorem requireThen {e : Expectation} {want : Token → Span → Option α} {f : α → Parser β}
    (hf : ∀ a, Curtails (f a) ∨ ∃ d b, f a = Parser.report d >>= fun _ => Pure.pure b) :
    Curtails (Parser.require e want >>= f) := by
  have hgrows (a : α) : Grows (f a) := by
    rcases hf a with h | ⟨d, b, h⟩
    · exact h.grows
    · rw [h]
      exact (Grows.report d).bind fun _ => (pure b).grows
  have hends : StuckAtEnd (Parser.require e want >>= f) := by
    intro env log hin
    rw [bind_halted (require_run_nil want e hin)]
    exact .silent log
  refine ⟨(require e want).grows.bind hgrows, hends, fun w inBody front log b rest hk hrun => ?_⟩
  cases front with
  | nil => exact .of_nil ((require e want).grows.bind hgrows) hends hrun
  | cons l front =>
      obtain ⟨t, s, rfl⟩ := hk.clean l List.mem_cons_self
      obtain ⟨a, mid, hfirst, hsecond, -, -⟩ := (require e want).grows.quiet_bind hgrows hrun
      obtain ⟨hw, hmid⟩ := exists_of_require hfirst
      obtain ⟨rfl, -⟩ := Remainder.mk.inj hmid
      rw [bind_done (require_run hw)]
      rcases hf a with h | ⟨d, b', h⟩
      · have hkept : w.Keeps front := hk.of_suffix (List.suffix_cons _ _)
        cases h.halves w inBody front log b rest hkept hsecond with
        | before suffix left same => exact .before (suffix.trans (List.suffix_cons _ _)) left same
        | behind suffix stuck => exact .behind suffix stuck
      · rw [h] at hsecond
        have hlog : d :: log = log := congrArg Remainder.log (Outcome.done.inj hsecond).2
        exact absurd hlog (List.cons_ne_self d log)

end Curtails

/-! ### Blocks -/

theorem Grows.of_orderly {n : Nat} {strict : Bool} {p : Parser α} (h : Orderly n strict p) :
    Grows p := by
  intro env r a r' hrun
  have ho := h env r
  rw [hrun] at ho
  cases ho with
  | done reads shorter => exact Grows.of_reads reads

/-- A block ends before the cut, or there is no end of it. -/
theorem skipBlock_cut {w : Cut} {c : Span} {rest : Remainder} (front : List Lexeme) :
    ∀ depth, Clean front → skipBlock depth log (front ++ w.back) = (some c, rest) →
      (∃ kept, kept <:+ front ∧ rest.lexemes = kept ++ w.back ∧ c ∈ spans front ∧
        skipBlock depth log front = (some c, ⟨kept, log⟩)) ∨
      rest.lexemes <:+ w.back ∧ skipBlock depth log front = (none, ⟨[], log⟩) := by
  induction front with
  | nil =>
      intro depth _ h
      refine .inr ⟨?_, rfl⟩
      obtain ⟨ys, hreads, -⟩ :=
        reads_skipBlock w.back depth log (List.replicate (depth + 1) default) (by simp)
      rw [List.nil_append] at h
      rw [h] at hreads
      exact (Grows.of_reads hreads).1
  | cons l front ih =>
      intro depth hc h
      obtain ⟨t, s, rfl⟩ := hc l List.mem_cons_self
      have hfront : Clean front := hc.of_suffix (List.suffix_cons _ _)
      -- A token that does not close the block only changes the depth.
      have hspans {d : Nat}
          (hstep : skipBlock depth log (.token t s :: front) = skipBlock d log front)
          (hrest : skipBlock d log (front ++ w.back) = (some c, rest)) :
          (∃ kept, kept <:+ .token t s :: front ∧ rest.lexemes = kept ++ w.back ∧
            c ∈ spans (.token t s :: front) ∧
            skipBlock depth log (.token t s :: front) = (some c, ⟨kept, log⟩)) ∨
          rest.lexemes <:+ w.back ∧
            skipBlock depth log (.token t s :: front) = (none, ⟨[], log⟩) := by
        rw [hstep]
        refine (ih d hfront hrest).imp_left ?_
        rintro ⟨kept, hsuf, hleft, hmem, hsame⟩
        exact ⟨kept, hsuf.trans (List.suffix_cons _ _), hleft, List.mem_cons_of_mem _ hmem, hsame⟩
      by_cases hl : t = .mark .leftBrace
      · subst hl
        exact hspans rfl h
      by_cases hr : t = .mark .rightBrace
      · subst hr
        cases depth with
        | zero =>
            obtain ⟨hclose, rfl⟩ := Prod.mk.inj h
            obtain rfl := Option.some.inj hclose
            exact .inl ⟨front, List.suffix_cons _ _, rfl, List.mem_cons_self, rfl⟩
        | succ depth => exact hspans rfl h
      · rw [List.cons_append, skipBlock_plain hl hr] at h
        exact hspans (skipBlock_plain hl hr _ _ _ _) h

theorem exists_of_blockEnd {env : Surroundings} {r r' : Remainder} {c : Span}
    (h : blockEnd env r = .done c r') : skipBlock 0 r.log r.lexemes = (some c, r') := by
  unfold blockEnd at h
  split at h
  · rename_i s r'' hskip
    obtain ⟨rfl, rfl⟩ := Outcome.done.inj h
    exact hskip
  · rename_i r'' hskip
    exact absurd h (unexpected_ne_done _ _ _ _ _)

theorem blockEnd_run {env : Surroundings} {r r' : Remainder} {c : Span}
    (h : skipBlock 0 r.log r.lexemes = (some c, r')) : blockEnd env r = .done c r' := by
  rw [blockEnd, h]

theorem blockEnd_run_none {env : Surroundings} (hin : env.inBody = true) {r : Remainder}
    (h : skipBlock 0 r.log r.lexemes = (none, ⟨[], log⟩)) :
    blockEnd env r = .halted .mismatch ⟨[], log⟩ := by
  rw [blockEnd, h]
  exact (unexpected_run_nil _ env rfl).trans (if_pos hin)

namespace Curtails

theorem aggregate : Curtails aggregate := by
  have hgrows : Grows Parser.aggregate := .of_orderly (n := 0) .aggregate
  have hends : StuckAtEnd Parser.aggregate := by
    intro env log hin
    unfold Parser.aggregate
    rw [expectMark_eq, bind_halted (require_run_nil _ _ hin)]
    exact .silent log
  refine ⟨hgrows, hends, fun w inBody front log value rest hk hrun => ?_⟩
  cases front with
  | nil => exact .of_nil hgrows hends hrun
  | cons l front =>
      obtain ⟨t, s, rfl⟩ := hk.clean l List.mem_cons_self
      unfold Parser.aggregate at hrun ⊢
      rw [expectMark_eq] at hrun ⊢
      obtain ⟨opening, mid, hopen, hrest⟩ := done_of_bind hrun
      obtain ⟨hw, rfl⟩ := exists_of_require hopen
      rw [bind_done (require_run hw)]
      obtain rfl : s = opening := by
        split at hw
        · exact Option.some.inj hw
        · cases hw
      obtain ⟨closing, mid, hclose, htext⟩ := done_of_bind hrest
      -- The block is closed before the cut, or the rest of it is used up in search of its brace.
      rcases skipBlock_cut front 0 (hk.clean.of_suffix (List.suffix_cons _ _))
        (exists_of_blockEnd hclose) with ⟨kept, hsuf, hleft, hmem, hsame⟩ | ⟨hback, hnone⟩
      · obtain ⟨rfl, hmid⟩ := Outcome.done.inj htext
        rw [bind_done (blockEnd_run hsame)]
        refine .before (hsuf.trans (List.suffix_cons _ _)) ?_ ?_
        · rw [← hleft, hmid]
        · dsimp only
          rw [hk.text s List.mem_cons_self closing (List.mem_cons_of_mem _ hmem)]
          rfl
      · obtain ⟨-, hmid⟩ := Outcome.done.inj htext
        refine .behind ?_ fun hin => ?_
        · rw [hmid] at hback
          exact hback
        · rw [bind_halted (blockEnd_run_none hin hnone)]
          exact .silent log

end Curtails

end Parser

end ProtoSchema
