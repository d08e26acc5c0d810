/-
An error in a body changes nothing around it.

The loop over members takes its turns one after the other, and a turn is about a member, a
semicolon, or a stretch that is no member.  The turns over the members before an error, the turn
over the error, and the turns over the members behind it can be put together.  A stretch that stands
last has no semicolon, and what ends it is the brace that closes the body, which is left for the
body to take.
-/
import ProtoSchema.Proofs.Recovery.Skipped

namespace ProtoSchema

open ProtoSchema.Parser

namespace Parser

variable {α γ : Type} {n : Nat} {b : α → γ} {p : Parser α} {R : Rule α} {ls rest : List Lexeme}
  {as : List α} {ds : List Diagnostic}

/-- What is derived is a front of the lexemes, and not an empty one. -/
theorem Declares.exists_front (h : Declares n b p R) {source : List Char} {a : α}
    (hR : R source ls a ds rest) : rest <:+ ls ∧ rest.length < ls.length := by
  obtain ⟨front, rfl, hne, -⟩ := h.retells source source _ _ _ _ hR
  refine ⟨List.suffix_append _ _, ?_⟩
  have hpos := List.length_pos_iff.mpr (hne rfl)
  rw [List.length_append]
  omega

theorem Declares.collects (h : Declares n b p R) (env : Surroundings)
    (hm : Rule.Members R env.source ls as ds rest) (hc : Clean ls) (hlen : ls.length ≤ n) :
    (∀ d ∈ ds, d.isFault = false) ∧ ∀ kind opening log,
      Collects (bodyTurn kind opening p) env ls log as rest (ds.reverse ++ log) :=
  (collects_members h.opens (fun ls log a ds rest hc hlen hR =>
    ⟨h.exists_front hR, h.complete env ls log a ds rest hc hlen hR⟩) hm hc hlen).2

/-- An error is complained about, and nothing is collected. -/
theorem Declares.collects_error (h : Declares n b p R) (env : Surroundings) {w : Stretch}
    (hne : w.tokens ≠ []) (hc : Clean w.behind) (hlen : w.all.length ≤ n)
    (hnot : w.stop = .semicolon → ∀ a ds, ¬ R env.source (w.tokens ++ [w.last]) a ds [])
    (kind : BodyKind) (opening : Span) (log : List Diagnostic) :
    ∃ cs, Complaint w.tokens w.last cs ∧
      Collects (bodyTurn kind opening p) env w.all log [] w.left (cs.reverse ++ log) := by
  obtain ⟨r, cs, hrun, hat, hlog, hcs⟩ := h.complains hc hlen hnot log
  refine ⟨cs, hcs, .skip ?_ (w.length_left_lt hne)⟩
  obtain ⟨t, s, xs, hall, hs, hr⟩ := w.exists_first hne
  have hset : Remainder.settle ⟨w.all, log⟩ = ⟨w.all, log⟩ := (w.clean_all hc).settle log
  have hhead : (Remainder.settle ⟨w.all, log⟩).lexemes = .token t s :: xs := by
    rw [hset, hall]
  rw [bodyTurn_member hhead hr hs, hset, hrun]
  dsimp only
  rw [hat.skipStatement, hlog]

end Parser

/-! ### Bodies with an error -/

variable {ls ls' : List Lexeme}

/-- A sequence of statements, with semicolons between them or not. -/
def Rule.Sequence {α : Type} (R : Rule α) (source : List Char) (ls : List Lexeme) (as : List α) :
    Prop :=
  ∃ ds, Members R source ls as ds []

/-- A sequence of statements in one text, and the same sequence in another. -/
structure Rule.Recurs {α : Type} (R : Rule α) (source source' : List Char)
    (ls ls' : List Lexeme) (as : List α) : Prop where
  derived : R.Sequence source ls as
  retold : Retold source source' ls ls'

/-- Tokens that are no statement, not even an empty one, and that open no block and close none. -/
structure Stray (wrong : List Lexeme) : Prop where
  some : wrong ≠ []
  plain : ∀ l ∈ wrong, l.isPlain = true

/-- The same diagnostics but for places, and a complaint somewhere among them. -/
def OneMore (wrong : List Lexeme) (last : Lexeme) (ds ds' : List Diagnostic) : Prop :=
  ∃ ds₁ cs ds₂ ds₁' ds₂', ds = ds₁ ++ cs ++ ds₂ ∧ ds' = ds₁' ++ ds₂' ∧
    Rule.SameMessages ds₁ ds₁' ∧ Rule.SameMessages ds₂ ds₂' ∧
    (∀ d ∈ ds₁ ++ ds₂, d.isFault = false) ∧ Complaint wrong last cs

theorem Rule.Members.trans {α : Type} {R : Rule α} {source : List Char} {mid rest : List Lexeme}
    {as bs : List α} {ds es : List Diagnostic} (h : Members R source ls as ds mid)
    (h' : Members R source mid bs es rest) : Members R source ls (as ++ bs) (ds ++ es) rest := by
  induction h with
  | nil ls => exact h'
  | semicolon others ih => exact .semicolon (ih h')
  | member first others ih =>
      rw [List.append_assoc]
      exact .member first (ih h')

/-- Wherever they stand, statements that recur are derived in both texts. -/
theorem Rule.Recurs.derives {α γ : Type} {b : α → γ} {R : Rule α} {source source' : List Char}
    {ls ls' : List Lexeme} {as : List α} (h : R.Recurs source source' ls ls' as)
    (hR : Retells true b R R) (rest rest' : List Lexeme) :
    ∃ as₁ as₂ ds₁ ds₂, Members R source (ls ++ rest) as₁ ds₁ rest ∧
      Members R source' (ls' ++ rest') as₂ ds₂ rest' ∧ as₁.map b = as.map b ∧
      as₂.map b = as.map b ∧ SameMessages ds₁ ds₂ := by
  obtain ⟨ds, hds⟩ := h.derived
  obtain ⟨front, hfront, hthere⟩ := hR.members source' hds
  obtain ⟨front', hfront', hhere⟩ := hR.members source hds
  rw [List.append_nil] at hfront hfront'
  subst hfront
  subst hfront'
  obtain ⟨as₁, ds₁, h₁, hb₁, hm₁⟩ := hhere ls rest (.refl source h.retold.clean.1)
  obtain ⟨as₂, ds₂, h₂, hb₂, hm₂⟩ := hthere ls' rest' h.retold
  exact ⟨as₁, as₂, ds₁, ds₂, h₁, h₂, hb₁, hb₂, hm₂.trans hm₁.symm⟩

/-- A statement that its parser accepts is a sequence of one. -/
theorem Parser.Declares.exists_recurs {α γ : Type} {n : Nat} {b : α → γ} {p : Parser α}
    {R : Rule α} (h : Declares n b p R) {source source' : List Char}
    (hretold : Retold source source' ls ls') (hlen : ls.length ≤ n)
    (haccepts : p.accepts source ls = true) :
    ∃ a r, R.Recurs source source' ls ls' [a] ∧ p ⟨source, false⟩ ⟨ls, []⟩ = .done a r := by
  have hc := hretold.clean.1
  obtain ⟨a, ds, hR⟩ := (h.derives_iff hc hlen).mpr haccepts
  obtain ⟨-, hrun⟩ := h.complete ⟨source, false⟩ ls [] a ds [] hc hlen hR
  exact ⟨a, _, ⟨⟨ds ++ [], .member hR (.nil [])⟩, hretold⟩, hrun⟩

/-- A place for a body. -/
structure Site where
  env : Surroundings
  log : List Diagnostic
  /-- What the messages within the body are counted off against. -/
  budget : List Lexeme
  opening : Span
  closing : Span
  behind : List Lexeme

namespace Site

/-- The brace that closes a body, and what stands behind it. -/
def tail (site : Site) : List Lexeme :=
  .token (.mark .rightBrace) site.closing :: site.behind

/-- A body with such lexemes between its braces, and what stands behind it. -/
def lexemes (site : Site) (ls : List Lexeme) : List Lexeme :=
  .token (.mark .leftBrace) site.opening :: (ls ++ site.tail)

/-- The parse of a body with such lexemes between its braces. -/
def parse (site : Site) (k : BodyKind) (ls : List Lexeme) : Outcome (List k.Member × Span) :=
  body k (k.member site.budget) site.env ⟨site.lexemes ls, site.log⟩

/-- The result for a body that its own brace closes. -/
def closed (site : Site) {k : BodyKind} (as : List k.Member) (ds : List Diagnostic) :
    Outcome (List k.Member × Span) :=
  .done (as, site.closing) ⟨site.behind, ds.reverse ++ site.log⟩

/-- The budget is enough for a body, and only tokens stand behind it. -/
structure Fits (site : Site) (ls : List Lexeme) : Prop where
  clean : Clean site.behind
  short : (site.lexemes ls).length ≤ site.budget.length

/-- The surroundings within a body. -/
def within (site : Site) : Surroundings := { site.env with inBody := true }

variable {site : Site} {k : BodyKind} {ls ls' : List Lexeme} {as bs : List k.Member}
  {ds es : List Diagnostic}

theorem Fits.clean_tail (h : site.Fits ls) : Clean site.tail := h.clean.token _ _

theorem Fits.length_le (h : site.Fits ls) : (ls ++ site.tail).length ≤ site.budget.length :=
  Nat.le_of_succ_le h.short

/-- A body is what its turns collect. -/
theorem parse_of_collects
    (h : Collects (bodyTurn k site.opening (k.member site.budget)) site.within (ls ++ site.tail)
      site.log as site.tail (ds.reverse ++ site.log)) :
    site.parse k ls = site.closed as ds := by
  have hopen : expectMark .leftBrace site.env ⟨site.lexemes ls, site.log⟩ =
      .done site.opening ⟨ls ++ site.tail, site.log⟩ := expectMark_run site.env rfl
  have hmany : inside (many (bodyTurn k site.opening (k.member site.budget))) site.env
      ⟨ls ++ site.tail, site.log⟩ = .done as ⟨site.tail, ds.reverse ++ site.log⟩ :=
    h.stop (bodyTurn_rightBrace rfl)
  have hclose : expectMark .rightBrace site.env ⟨site.tail, ds.reverse ++ site.log⟩ =
      .done site.closing ⟨site.behind, ds.reverse ++ site.log⟩ := expectMark_run site.env rfl
  rw [parse, body_eq, bind_done hopen, bind_done hmany, bind_done hclose]
  rfl

/-- A body with members only. -/
theorem parse_members (h : Rule.Members k.rule site.env.source (ls ++ site.tail) as ds site.tail)
    (hc : Clean ls) (hfits : site.Fits ls) : site.parse k ls = site.closed as ds := by
  have hk := k.declares site.budget
  have hclean := hc.append hfits.clean_tail
  obtain ⟨-, hcollects⟩ := hk.collects site.within h hclean hfits.length_le
  exact parse_of_collects (hcollects k site.opening site.log)

/-- A body with an error, between members or behind the last. -/
theorem parse_error {w : Stretch} (h : Rule.Members k.rule site.env.source (ls ++ w.all) as ds w.all)
    (h' : Rule.Members k.rule site.env.source w.left bs es site.tail)
    (hall : ls' ++ site.tail = ls ++ w.all) (hc : Clean ls) (hbehind : Clean w.behind)
    (hne : w.tokens ≠ [])
    (hnot : w.stop = .semicolon → ∀ m ds, ¬ k.rule site.env.source (w.tokens ++ [w.last]) m ds [])
    (hfits : site.Fits ls') :
    (∀ d ∈ ds ++ es, d.isFault = false) ∧ ∃ cs, Complaint w.tokens w.last cs ∧
      site.parse k ls' = site.closed (as ++ bs) (ds ++ cs ++ es) := by
  have hk := k.declares site.budget
  have hclean := w.clean_all hbehind
  have hlen : (ls ++ w.all).length ≤ site.budget.length := hall ▸ hfits.length_le
  have hlen' : w.all.length ≤ site.budget.length := by
    rw [List.length_append] at hlen
    omega
  have hlt := w.length_left_lt hne
  obtain ⟨hds, hbefore⟩ := hk.collects site.within h (hc.append hclean) hlen
  obtain ⟨cs, hcs, herror⟩ := hk.collects_error site.within hne hbehind hlen' hnot k site.opening
    (ds.reverse ++ site.log)
  obtain ⟨hes, hafter⟩ := hk.collects site.within h' (hclean.of_suffix w.left_suffix) (by omega)
  refine ⟨List.forall_mem_append.mpr ⟨hds, hes⟩, cs, hcs, parse_of_collects ?_⟩
  have hturns := ((hbefore k site.opening site.log).trans herror).trans (hafter k site.opening _)
  rw [List.append_nil] at hturns
  rw [hall, List.reverse_append, List.reverse_append, List.append_assoc, List.append_assoc]
  exact hturns

end Site

/--
An error between the members of a body.  The members before and behind it also stand in a second
text, and there without the error.  Both bodies are closed by their own brace and hold the same
members, and the complaint about the error is all that one has to report and the other has not.
-/
def BodyKind.IsolatesBetween (k : BodyKind) : Prop :=
  ∀ (site site' : Site) (before before' wrong after after' : List Lexeme) (stop : Span)
    (ms ns : List k.Member),
    k.rule.Recurs site.env.source site'.env.source before before' ms →
    k.rule.Recurs site.env.source site'.env.source after after' ns →
    Stray wrong →
    (∀ m ds, ¬ k.rule site.env.source (wrong ++ [.token (.mark .semicolon) stop]) m ds []) →
    site.Fits (before ++ (wrong ++ .token (.mark .semicolon) stop :: after)) →
    site'.Fits (before' ++ after') →
    ∃ as as' ds ds',
      site.parse k (before ++ (wrong ++ .token (.mark .semicolon) stop :: after)) =
        site.closed as ds ∧
      site'.parse k (before' ++ after') = site'.closed as' ds' ∧
      as.map k.bare = (ms ++ ns).map k.bare ∧ as'.map k.bare = (ms ++ ns).map k.bare ∧
      OneMore wrong (.token (.mark .semicolon) stop) ds ds'

/--
An error at the end of a body, with no semicolon behind it.  It may be a member that lacks no more
than that.
-/
def BodyKind.IsolatesLast (k : BodyKind) : Prop :=
  ∀ (site site' : Site) (before before' wrong : List Lexeme) (ms : List k.Member),
    k.rule.Recurs site.env.source site'.env.source before before' ms →
    Stray wrong →
    site.Fits (before ++ wrong) →
    site'.Fits before' →
    ∃ as as' ds ds',
      site.parse k (before ++ wrong) = site.closed as ds ∧
      site'.parse k before' = site'.closed as' ds' ∧
      as.map k.bare = ms.map k.bare ∧ as'.map k.bare = ms.map k.bare ∧
      OneMore wrong (.token (.mark .rightBrace) site.closing) ds ds'

/-- **An error between members changes none of them.** -/
theorem BodyKind.isolatesBetween (k : BodyKind) : k.IsolatesBetween := by
  intro site site' before before' wrong after after' stop ms ns hbefore hafter hwrong hnot hfits
    hfits'
  have hk := k.declares site.budget
  let w : Stretch :=
    ⟨wrong, hwrong.plain, .semicolon, .inl rfl, stop, after ++ site.tail⟩
  obtain ⟨as₁, as₁', ds₁, ds₁', h₁, h₁', hb₁, hb₁', hm₁⟩ :=
    hbefore.derives hk.retells w.all (after' ++ site'.tail)
  obtain ⟨as₂, as₂', ds₂, ds₂', h₂, h₂', hb₂, hb₂', hm₂⟩ :=
    hafter.derives hk.retells site.tail site'.tail
  have hall : before ++ (wrong ++ .token (.mark .semicolon) stop :: after) ++ site.tail =
      before ++ w.all := by
    simp [w, Stretch.all, Stretch.last]
  obtain ⟨hds, cs, hcs, hrun⟩ := Site.parse_error h₁ h₂ hall hbefore.retold.clean.1
    (hafter.retold.clean.1.append hfits.clean_tail) hwrong.some (fun _ => hnot) hfits
  have hmembers := h₁'.trans h₂'
  rw [← List.append_assoc] at hmembers
  have hrun' := Site.parse_members hmembers
    (hbefore.retold.clean.2.append hafter.retold.clean.2) hfits'
  refine ⟨_, _, _, _, hrun, hrun', ?_, ?_, ds₁, cs, ds₂, ds₁', ds₂', rfl, rfl, hm₁, hm₂, hds, hcs⟩
  · rw [List.map_append, List.map_append, hb₁, hb₂]
  · rw [List.map_append, List.map_append, hb₁', hb₂']

/-- **An error behind the last member changes none of them, and the body ends where it did.** -/
theorem BodyKind.isolatesLast (k : BodyKind) : k.IsolatesLast := by
  intro site site' before before' wrong ms hbefore hwrong hfits hfits'
  have hk := k.declares site.budget
  let w : Stretch := ⟨wrong, hwrong.plain, .rightBrace, .inr rfl, site.closing, site.behind⟩
  obtain ⟨as, as', ds, ds', h, h', hb, hb', hm⟩ := hbefore.derives hk.retells w.all site'.tail
  have hall : before ++ wrong ++ site.tail = before ++ w.all := List.append_assoc _ _ _
  have hnot : w.stop ≠ .semicolon := Punctuation.noConfusion
  obtain ⟨hds, cs, hcs, hrun⟩ := Site.parse_error h (.nil site.tail) hall hbefore.retold.clean.1
    hfits.clean hwrong.some (fun hs => absurd hs hnot) hfits
  have hrun' := Site.parse_members h' hbefore.retold.clean.2 hfits'
  rw [List.append_nil] at hrun
  refine ⟨as, as', _, ds', hrun, hrun', hb, hb', ds, cs, [], ds', [], rfl, ?_, hm, .refl [], hds,
    hcs⟩
  rw [List.append_nil]

end ProtoSchema
