/-
A statement that does not parse is skipped, and nothing else is.

Statements of a file and members of a body have a few things in common, which is all that
recovery needs to know of them: their parser means a rule, reads within a stretch, and takes
a semicolon last, and the rule does not look behind its last token.  `Declares` collects these.

If such a parser is run before a stretch that its rule does not derive, it halts at a token
of the stretch.  Skipping then goes on from that token to the end of the same stretch: behind
a semicolon, or before a brace that was there to close the body.
-/
import ProtoSchema.Proofs.Grammar.Acceptance
import ProtoSchema.Proofs.Recovery.Derivations
import ProtoSchema.Proofs.Recovery.Ending

namespace ProtoSchema

open ProtoSchema.Parser

/--
What is reported about a statement that does not parse: first the values in it that are
wrong, and at last one token of it, or the one that ends it.
-/
def Complaint (tokens : List Lexeme) (last : Lexeme) (ds : List Diagnostic) : Prop :=
  ∃ values e t s, ds = values ++ [.unexpectedToken e t s] ∧ .token t s ∈ tokens ++ [last] ∧
    ∀ d ∈ values, d.isAboutValue = true ∧ Covered tokens d.span

theorem Lexeme.ne_of_isPlain {t : Token} {s : Span} (h : (Lexeme.token t s).isPlain = true) :
    t ≠ .mark .semicolon ∧ t ≠ .mark .leftBrace ∧ t ≠ .mark .rightBrace := by
  simpa [isPlain, and_assoc] using h

namespace Stretch

variable {w : Stretch} {ls : List Lexeme}

/-- All lexemes from the first token of a stretch on. -/
def all (w : Stretch) : List Lexeme := w.tokens ++ w.last :: w.behind

/-- What is left when a stretch has been skipped. -/
def left (w : Stretch) : List Lexeme :=
  if w.stop = .semicolon then w.behind else w.last :: w.behind

theorem at_all (w : Stretch) : w.At w.all := ⟨w.tokens, List.suffix_refl _, rfl⟩

theorem clean_tokens (w : Stretch) : Clean w.tokens := by
  intro l hl
  have hplain := w.plain l hl
  cases l with
  | token t s => exact ⟨t, s, rfl⟩
  | illegal c s => cases hplain
  | note d => cases hplain

theorem clean_all (h : Clean w.behind) : Clean w.all := w.clean_tokens.append (h.token _ _)

/-- A stretch starts with a token that a statement may start with. -/
theorem exists_first (h : w.tokens ≠ []) :
    ∃ t s xs, w.all = .token t s :: xs ∧ t ≠ .mark .semicolon ∧ t ≠ .mark .rightBrace := by
  obtain ⟨l, xs, hxs⟩ := List.exists_cons_of_ne_nil h
  have hmem : l ∈ w.tokens := by
    rw [hxs]
    exact List.mem_cons_self
  have hplain := w.plain l hmem
  obtain ⟨t, s, rfl⟩ := w.clean_tokens l hmem
  obtain ⟨hs, -, hr⟩ := Lexeme.ne_of_isPlain hplain
  exact ⟨t, s, xs ++ w.last :: w.behind, by rw [all, hxs]; rfl, hs, hr⟩

theorem left_suffix (w : Stretch) : w.left <:+ w.all := by
  unfold left all
  split
  · exact (List.suffix_cons _ _).trans (List.suffix_append _ _)
  · exact List.suffix_append _ _

theorem length_left_lt (h : w.tokens ≠ []) : w.left.length < w.all.length := by
  have hpos := List.length_pos_iff.mpr h
  unfold left all
  split
  · rw [List.length_append, List.length_cons]
    omega
  · rw [List.length_append]
    omega

end Stretch

/-- Wherever a statement was left, the rest of it is skipped. -/
theorem Stretch.At.skipStatement {w : Stretch} {ls : List Lexeme} (h : w.At ls)
    (log : List Diagnostic) : skipStatement 0 log ls = ⟨w.left, log⟩ := by
  obtain ⟨xs, hsuf, rfl⟩ := h
  have hplain : ∀ l ∈ xs, l.isPlain = true := fun l hl => w.plain l (hsuf.subset hl)
  clear hsuf
  induction xs with
  | nil =>
      unfold Stretch.left
      rcases w.ends with hs | hs
      · rw [if_pos hs, List.nil_append, Stretch.last, hs]
        rfl
      · rw [if_neg (by rw [hs]; decide), List.nil_append, Stretch.last, hs]
        rfl
  | cons x xs ih =>
      have hx := hplain x List.mem_cons_self
      cases x with
      | token t s =>
          obtain ⟨hs, hl, hr⟩ := Lexeme.ne_of_isPlain hx
          rw [List.cons_append, Parser.skipStatement, if_neg hl]
          simp only [if_neg hs, if_neg hr]
          exact ih fun l hl => hplain l (List.mem_cons_of_mem _ hl)
      | illegal c s => cases hx
      | note d => cases hx

theorem Diagnostic.isFault_of_isAboutValue {d : Diagnostic} (h : d.isAboutValue = true) :
    d.isFault = false := by
  cases d <;> first | rfl | cases h

namespace Parser

variable {α γ : Type} {n : Nat} {b : α → γ} {p : Parser α} {R : Rule α}

/--
A parser of statements, where no more than `n` lexemes are left.  What a statement looks
like without its places is for `b` to say.
-/
structure Declares (n : Nat) (b : α → γ) (p : Parser α) (R : Rule α) : Prop where
  sound : Sound p R
  complete : ∀ env ls log a ds rest, Clean ls → ls.length ≤ n → R env.source ls a ds rest →
    (∀ d ∈ ds, d.isFault = false) ∧ p env ⟨ls, log⟩ = .done a ⟨rest, ds.reverse ++ log⟩
  orderly : Orderly n true p
  ending : ∀ w, Ending w p
  opens : Rule.Opens startsMember anything R
  retells : Rule.Retells true b R R

theorem Declares.of_means (hm : Means anything p R) (ho : Orderly n true p)
    (he : ∀ w, Ending w p) (hR : Rule.Opens startsMember anything R)
    (hb : Rule.Retells true b R R) : Declares n b p R where
  sound := hm.sound
  complete := fun env ls log a ds rest hc _ hr => (hm.complete env ls log a ds rest hc hr trivial).2
  orderly := ho
  ending := he
  opens := hR
  retells := hb

/-- What is derived from a stretch with something behind it is derived from the stretch alone. -/
theorem Declares.derives_alone (h : Declares n b p R) {source : List Char}
    {front rest : List Lexeme} {a : α} {ds : List Diagnostic} (hc : Clean front)
    (hR : R source (front ++ rest) a ds rest) : ∃ a' ds', R source front a' ds' [] := by
  obtain ⟨front', hfront, -, hretells⟩ := h.retells source source _ _ _ _ hR
  obtain rfl := List.append_cancel_right hfront
  obtain ⟨a', ds', hR', -, -⟩ := hretells front [] (.refl source hc) nofun
  rw [List.append_nil] at hR'
  exact ⟨a', ds', hR'⟩

/-- Whether a parser reads all of some lexemes without a complaint. -/
def accepts (p : Parser α) (source : List Char) (ls : List Lexeme) : Bool :=
  match p ⟨source, false⟩ ⟨ls, []⟩ with
  | .done _ r => r.lexemes.isEmpty && r.log.all fun d => !d.isFault
  | .halted _ _ => false

/-- The statements of a rule are those that the parser accepts. -/
theorem Declares.derives_iff (h : Declares n b p R) {source : List Char} {ls : List Lexeme}
    (hc : Clean ls) (hlen : ls.length ≤ n) :
    (∃ a ds, R source ls a ds []) ↔ p.accepts source ls = true := by
  constructor
  · rintro ⟨a, ds, hR⟩
    obtain ⟨hds, hrun⟩ := h.complete ⟨source, false⟩ ls [] a ds [] hc hlen hR
    rw [accepts, hrun]
    simpa using hds
  · intro haccepts
    unfold accepts at haccepts
    cases hrun : p ⟨source, false⟩ ⟨ls, []⟩ with
    | halted reason r =>
        rw [hrun] at haccepts
        cases haccepts
    | done a r =>
        rw [hrun] at haccepts
        obtain ⟨hrest, hquiet⟩ := Bool.and_eq_true_iff.mp haccepts
        obtain ⟨ds, hlog, -, hR⟩ := h.sound _ ls [] a r hc hrun
        rw [List.append_nil] at hlog
        rw [hlog, List.all_reverse] at hquiet
        rw [List.isEmpty_iff.mp hrest] at hR
        exact ⟨a, ds, hR fun d hd => by simpa using List.all_eq_true.mp hquiet d hd⟩

theorem Declares.not_derives (h : Declares n b p R) {source : List Char} {ls : List Lexeme}
    (hc : Clean ls) (hlen : ls.length ≤ n) (hrejects : p.accepts source ls = false) :
    ∀ a ds, ¬ R source ls a ds [] := by
  intro a ds hR
  rw [(h.derives_iff hc hlen).mp ⟨a, ds, hR⟩] at hrejects
  cases hrejects

/-- What is parsed within a stretch is the whole of it, and a statement. -/
theorem Declares.derives_of_done (h : Declares n b p R) {w : Stretch} {env : Surroundings}
    (hc : Clean w.behind) {log : List Diagnostic} {a : α} {r : Remainder}
    (hrun : p env ⟨w.all, log⟩ = .done a r) :
    w.stop = .semicolon ∧ ∃ a ds, R env.source (w.tokens ++ [w.last]) a ds [] := by
  have hstays := h.ending w env ⟨w.all, log⟩ w.at_all
  rw [hrun] at hstays
  cases hstays with
  | done value logs =>
      obtain ⟨hsemi, hrest⟩ := value
      obtain ⟨new, hnew, hvalues⟩ := logs
      obtain ⟨ds, hlog, -, hR⟩ := h.sound env _ log a r (w.clean_all hc) hrun
      obtain rfl : ds.reverse = new := List.append_cancel_right (hlog.symm.trans hnew)
      have hR := hR fun d hd =>
        Diagnostic.isFault_of_isAboutValue (hvalues d (List.mem_reverse.mpr hd)).1
      have hsplit : w.all = (w.tokens ++ [w.last]) ++ w.behind := by
        rw [List.append_assoc]
        rfl
      rw [hrest, hsplit] at hR
      have hclean : Clean (w.tokens ++ [w.last]) :=
        w.clean_tokens.append (List.forall_mem_singleton.mpr ⟨_, _, rfl⟩)
      exact ⟨hsemi, h.derives_alone hclean hR⟩

/-- A stretch that is no statement is complained about, at one of its tokens or at its end. -/
theorem Declares.complains (h : Declares n b p R) {w : Stretch} {env : Surroundings}
    (hc : Clean w.behind) (hlen : w.all.length ≤ n)
    (hnot : w.stop = .semicolon → ∀ a ds, ¬ R env.source (w.tokens ++ [w.last]) a ds [])
    (log : List Diagnostic) :
    ∃ r cs, p env ⟨w.all, log⟩ = .halted .mismatch r ∧ w.At r.lexemes ∧ r.log = cs.reverse ++ log ∧
      Complaint w.tokens w.last cs := by
  cases hrun : p env ⟨w.all, log⟩ with
  | done a r =>
      obtain ⟨hsemi, a, ds, hR⟩ := h.derives_of_done hc hrun
      exact absurd hR (hnot hsemi a ds)
  | halted reason r =>
      have hstays := h.ending w env ⟨w.all, log⟩ w.at_all
      rw [hrun] at hstays
      cases hstays with
      | @mismatch e t s rest log' stays logs =>
          obtain ⟨new, rfl, hvalues⟩ := logs
          refine ⟨_, new.reverse ++ [.unexpectedToken e t s], rfl, stays, ?_, new.reverse, e, t, s,
            rfl, ?_, fun d hd => hvalues d (List.mem_reverse.mp hd)⟩
          · rw [List.reverse_append, List.reverse_reverse]
            rfl
          · rcases stays.cases with ⟨t', s', rest', heq, hmem, -, -⟩ | heq
            · cases heq
              exact List.mem_append_left _ hmem
            · rw [(List.cons.inj heq).1]
              exact List.mem_append_right _ (List.mem_singleton_self _)
      | exhausted =>
          have ho := h.orderly env ⟨w.all, log⟩
          rw [hrun] at ho
          cases ho with
          | exhausted budget => exact absurd budget (Nat.not_lt.mpr hlen)

end Parser

/-! ### What may stand in a body, and in a file -/

/-- The members of a body. -/
def BodyKind.Member : BodyKind → Type
  | .message => MessageMember
  | .oneof => OneofMember
  | .extend => Field
  | .enum => EnumMember
  | .service => ServiceMember
  | .method => OptionStatement

namespace BodyKind

/-- The parser of members.  Messages in a message are counted off against a budget. -/
def member (budget : List Lexeme) : (k : BodyKind) → Parser k.Member
  | .message => messageMember (messageWithin budget)
  | .oneof => oneofMember
  | .extend => extendMember
  | .enum => enumMember
  | .service => serviceMember
  | .method => methodMember

/-- The rule for members. -/
def rule : (k : BodyKind) → Rule k.Member
  | .message => Rule.messageMember Rule.message
  | .oneof => Rule.oneofMember
  | .extend => Rule.field
  | .enum => Rule.enumMember
  | .service => Rule.serviceMember
  | .method => Rule.optionStatement

/-- A member without its places. -/
def bare : (k : BodyKind) → k.Member → k.Member
  | .message => MessageMember.bare
  | .oneof => OneofMember.bare
  | .extend => Field.bare
  | .enum => EnumMember.bare
  | .service => ServiceMember.bare
  | .method => OptionStatement.bare

/-- A budget that is as long as what is left is never spent. -/
theorem declares_message (budget : List Lexeme) :
    Declares budget.length MessageMember.bare (messageMember (messageWithin budget))
      (Rule.messageMember Rule.message) where
  sound := by
    intro env ls log a r hc hrun
    obtain ⟨ds, hlog, hsuf, hR⟩ :=
      (Means.messageMember (Means.messageWithin (F := anything) budget)).sound env ls log a r hc hrun
    refine ⟨ds, hlog, hsuf, fun hds => Rule.messageMember_mono (fun m ds rest hm => ?_) (hR hds)⟩
    exact ⟨budget.length, hm⟩
  complete := by
    intro env ls log a ds rest hc hlen hR
    refine ((Means.messageMember (Means.messageWithin (F := anything) budget)).complete env ls log a
      ds rest hc (Rule.messageMember_mono (fun m ds rest hm => ?_) hR) trivial).2
    obtain ⟨depth, hm⟩ := hm
    exact Rule.messageUpTo_length depth hc hlen hm
  orderly := Orderly.messageMember (Orderly.messageWithin budget)
  ending := fun _ => Bounded.messageMember (Bounded.messageWithin budget)
  opens := .messageMember _
  retells := Rule.Retells.messageMember Rule.Retells.message

/-- The members of every body are declared by its parser. -/
theorem declares (budget : List Lexeme) (k : BodyKind) :
    Declares budget.length k.bare (k.member budget) k.rule := by
  cases k with
  | message => exact declares_message budget
  | oneof =>
      exact .of_means .oneofMember .oneofMember (fun _ => .oneofMember) .oneofMember .oneofMember
  | extend =>
      exact .of_means .extendMember .extendMember (fun _ => .extendMember) (.startsMember .field)
        .field
  | enum => exact .of_means .enumMember .enumMember (fun _ => .enumMember) .enumMember .enumMember
  | service =>
      exact .of_means .serviceMember .serviceMember (fun _ => .serviceMember) .serviceMember
        .serviceMember
  | method =>
      exact .of_means .methodMember .methodMember (fun _ => .methodMember) .optionStatement
        .optionStatement

end BodyKind

theorem declares_statement (n : Nat) : Declares n Statement.bare statement Rule.statement :=
  .of_means .statement .statement (fun _ => .statement) .statement .statement

end ProtoSchema
