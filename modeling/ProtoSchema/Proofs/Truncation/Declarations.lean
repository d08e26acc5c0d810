/-
What becomes of a declaration that the source ends in.

The header of a declaration holds no opening brace.  So if there is none before the cut, the
cut lies in the header, and the declaration is stuck like any other production.  Otherwise the
header is read as before, and the parser is in the loop over members when the source ends.  What
that loop does is not said here: `Leads` says that a declaration leads into the loop of its kind
of body, and that it is not closed if the loop ends with a body that is not closed.

A message within a message counts its nesting off against a budget, and the budgets of the two
runs differ.  That is why the properties are about two parsers.
-/
import ProtoSchema.Proofs.Layout.Declarations
import ProtoSchema.Proofs.Truncation.Phrases

namespace ProtoSchema.Parser

variable {α β : Type} {n : Nat} {bodies : α → List BodyNode}

/-! ### Headers -/

/-- A parser that takes no opening brace, where there is nothing to report. -/
def Braceless (p : Parser α) : Prop :=
  ∀ env ls log a rest, Clean ls → p env ⟨ls, log⟩ = .done a ⟨rest, log⟩ →
    ∃ taken, ls = taken ++ rest ∧ ∀ l ∈ taken, l.isOpening = false

namespace Braceless

variable {F : Follow} {p : Parser α}

/-- What is derived when nothing is reported. -/
theorem derived {R : Rule α} (h : Sound p R) {env : Surroundings} {ls rest : List Lexeme}
    {log : List Diagnostic} {a : α} (hc : Clean ls) (hrun : p env ⟨ls, log⟩ = .done a ⟨rest, log⟩) :
    R env.source ls a [] rest := by
  obtain ⟨ds, hlog, -, hR⟩ := h env ls log a _ hc hrun
  obtain rfl : ds = [] := List.reverse_eq_nil_iff.mp (List.self_eq_append_left.mp hlog)
  exact hR fun d hd => absurd hd List.not_mem_nil

theorem of_means {R : Rule α} (hm : Means F p R) (hR : R.Unopened) : Braceless p :=
  fun _ _ _ _ _ hc hrun => hR _ _ _ _ _ (derived hm.sound hc hrun)

theorem peek : Braceless peek := by
  intro env ls log t? rest hc hrun
  rw [peek_run, hc.settle] at hrun
  obtain ⟨-, hrest⟩ := Outcome.done.inj hrun
  obtain ⟨rfl, -⟩ := Remainder.mk.inj hrest
  exact ⟨[], rfl, fun l hl => absurd hl List.not_mem_nil⟩

theorem peekKeyword : Braceless peekKeyword := by
  intro env ls log k? rest hc hrun
  rw [peekKeyword_run, hc.settle] at hrun
  obtain ⟨-, hrest⟩ := Outcome.done.inj hrun
  obtain ⟨rfl, -⟩ := Remainder.mk.inj hrest
  exact ⟨[], rfl, fun l hl => absurd hl List.not_mem_nil⟩

theorem expectMark {m : Punctuation} (h : m ≠ .leftBrace) : Braceless (expectMark m) :=
  of_means (.expectMark (F := anything) m) (.mark h)

theorem expectKeyword (k : Keyword) : Braceless (expectKeyword k) :=
  of_means (.expectKeyword (F := anything) k) (.keyword k)

theorem ident : Braceless ident := of_means (F := anything) .ident .ident

theorem typeName {stop : Terminator} (h : stop.admits (.mark .dot) = false) :
    Braceless (typeName stop) := of_means (.typeName h) .typeName

theorem methodType : Braceless methodType := of_means (F := anything) .methodType .methodType

end Braceless

/-- What takes no opening brace leaves the first one to what comes behind it. -/
theorem exists_header {taken mid header tail : List Lexeme} {opening : Span}
    (h : header ++ .token (.mark .leftBrace) opening :: tail = taken ++ mid)
    (ht : ∀ l ∈ taken, l.isOpening = false) :
    ∃ header', header = taken ++ header' ∧
      mid = header' ++ .token (.mark .leftBrace) opening :: tail := by
  rcases List.append_eq_append_iff.mp h with ⟨as, htaken, htail⟩ | ⟨bs, hheader, hmid⟩
  · cases as with
    | nil => exact ⟨[], by rw [htaken, List.append_nil, List.append_nil], htail.symm⟩
    | cons l as =>
        obtain ⟨rfl, -⟩ := List.cons.inj htail
        cases ht _ (htaken ▸ List.mem_append_right header List.mem_cons_self)
  · exact ⟨bs, hheader, hmid⟩

/-- A body starts with an opening brace. -/
theorem isOpening_of_body {k : BodyKind} {m : Parser α} {env : Surroundings} {l : Lexeme}
    {ls : List Lexeme} {log : List Diagnostic} {found : List α × Span} {r : Remainder}
    (hl : ∃ t s, l = .token t s) (h : body k m env ⟨l :: ls, log⟩ = .done found r) :
    l.isOpening = true := by
  obtain ⟨t, s, rfl⟩ := hl
  rw [body_eq, expectMark_eq] at h
  obtain ⟨opening, mid, hopen, -⟩ := done_of_bind h
  obtain ⟨hw, -⟩ := exists_of_require hopen
  split at hw
  · rename_i ht
    rw [ht]
    rfl
  · cases hw

/-! ### Into a body -/

/-- A cut within the body of a declaration: the tokens before it, and that they go on behind it. -/
structure Entered (w : Cut) (header : List Lexeme) (opening : Span) (inner rest : List Lexeme) :
    Prop where
  keeps : w.Keeps (header ++ .token (.mark .leftBrace) opening :: inner)
  unopened : ∀ l ∈ header, l.isOpening = false
  behind : rest <:+ w.back

/-- A declaration is not closed if its body is entered, and the loop over members is not closed. -/
structure Leads (n : Nat) (bodies : α → List BodyNode) (p p' : Parser α) : Prop where
  grows : Grows p
  unclosed : ∀ (w : Cut) inBody header opening inner log a rest b bs,
    Entered w header opening inner rest → header.length + inner.length < n →
    p ⟨w.source, inBody⟩ ⟨header ++ .token (.mark .leftBrace) opening :: inner ++ w.back, log⟩ =
      .done a ⟨rest, log⟩ →
    bodies a = b :: bs →
    ∃ budget, inner.length ≤ budget.length ∧ ∀ r,
      many (bodyTurn b.kind opening (b.kind.member budget)) ⟨w.pre, true⟩ ⟨inner, log⟩ =
        .halted .unclosed r →
      p' ⟨w.pre, inBody⟩ ⟨header ++ .token (.mark .leftBrace) opening :: inner, log⟩ =
        .halted .unclosed r

namespace Leads

variable {p p' : Parser α}

/-- What has no body enters none. -/
theorem plain {F : Follow} {R : Rule α} (hg : Grows p) (hm : Means F p R)
    (hR : R.Gives fun a => bodies a = []) (p' : Parser α) : Leads n bodies p p' where
  grows := hg
  unclosed := by
    intro w inBody header opening inner log a rest b bs hin _ hrun hb
    have hnil := hR _ _ _ _ _ (Braceless.derived hm.sound hin.keeps.all hrun)
    cases hnil.symm.trans hb

theorem unexpected (e : Expectation) (p' : Parser α) : Leads n bodies (unexpected e) p' where
  grows := (Curtails.unexpected e).grows
  unclosed := fun _ _ _ _ _ _ _ _ _ _ _ _ hrun => absurd hrun (unexpected_ne_done _ _ _ _ _)

theorem after {q : Parser β} {f f' : β → Parser α} (hq : Curtails q) (hs : Braceless q)
    (hf : ∀ b, Leads n bodies (f b) (f' b)) : Leads n bodies (q >>= f) (q >>= f') where
  grows := hq.grows.bind fun b => (hf b).grows
  unclosed := by
    intro w inBody header opening inner log a rest b bs hin hlen hrun hb
    obtain ⟨c, mid, hfirst, hsecond, -, -⟩ := hq.grows.quiet_bind (fun b => (hf b).grows) hrun
    obtain ⟨taken, htokens, htaken⟩ := hs _ _ _ _ _ hin.keeps.all hfirst
    rw [List.append_assoc, List.cons_append] at htokens
    obtain ⟨header, rfl, rfl⟩ := exists_header htokens htaken
    cases hq.halves w inBody _ log c _ hin.keeps hfirst with
    | behind suffix stuck =>
        have hle := suffix.length_le
        simp only [List.length_append, List.length_cons] at hle
        omega
    | before suffix left same =>
        rw [← List.cons_append, ← List.append_assoc] at left hsecond
        obtain rfl := List.append_cancel_right left
        have hin' : Entered w header opening inner rest :=
          ⟨hin.keeps.of_suffix suffix, fun l hl => hin.unopened l (List.mem_append_right _ hl),
            hin.behind⟩
        rw [List.length_append] at hlen
        obtain ⟨budget, hbudget, h⟩ := (hf c).unclosed w inBody header opening inner log a rest b bs
          hin' (by omega) hsecond hb
        refine ⟨budget, hbudget, fun r hr => ?_⟩
        rw [bind_done same]
        exact h r hr

theorem map {bodies' : β → List BodyNode} {f : α → β} (h : Leads n bodies p p')
    (hf : ∀ a, bodies' (f a) = bodies a) : Leads n bodies' (f <$> p) (f <$> p') := by
  rw [← bind_pure_comp, ← bind_pure_comp]
  refine ⟨h.grows.bind fun a => (Curtails.pure _).grows, ?_⟩
  intro w inBody header opening inner log b rest c cs hin hlen hrun hc
  obtain ⟨a, mid, hfirst, hsecond, -, -⟩ :=
    h.grows.quiet_bind (fun a => (Curtails.pure _).grows) hrun
  obtain ⟨rfl, hmid⟩ := Outcome.done.inj hsecond
  obtain ⟨rfl, -⟩ := Remainder.mk.inj hmid
  obtain ⟨budget, hbudget, h⟩ := h.unclosed w inBody header opening inner log a mid c cs hin hlen
    hfirst ((hf a).symm.trans hc)
  exact ⟨budget, hbudget, fun r hr => bind_halted (h r hr)⟩

/-- A body, and what is made of it. -/
theorem body {k : BodyKind} {m m' : Parser k.Member} {g : List k.Member × Span → Parser α}
    {l : Nat} (hm : Orderly l true m)
    (hm' : ∀ inner : List Lexeme, inner.length < n →
      ∃ budget, inner.length ≤ budget.length ∧ m' = k.member budget)
    (hg : ∀ found, ∃ a s members bs, g found = Pure.pure a ∧ bodies a = ⟨k, s, members⟩ :: bs) :
    Leads n bodies (Parser.body k m >>= g) (Parser.body k m' >>= g) where
  grows := by
    refine (Grows.of_orderly (.body k hm)).bind fun found => ?_
    obtain ⟨a, s, members, bs, hpure, -⟩ := hg found
    rw [hpure]
    exact (Curtails.pure a).grows
  unclosed := by
    intro w inBody header opening inner log a rest b bs hin hlen hrun hb
    obtain ⟨found, mid, hbody, hpure⟩ := done_of_bind hrun
    obtain ⟨a', s, members, bs', heq, ha'⟩ := hg found
    rw [heq] at hpure
    obtain ⟨rfl, -⟩ := Outcome.done.inj hpure
    obtain ⟨rfl, rfl⟩ := List.cons.inj (ha'.symm.trans hb)
    -- The body was there, so nothing stands in front of its brace.
    cases header with
    | cons l header =>
        have hfirst := isOpening_of_body (hin.keeps.clean l List.mem_cons_self) hbody
        cases hfirst.symm.trans (hin.unopened l List.mem_cons_self)
    | nil =>
        rw [List.length_nil, Nat.zero_add] at hlen
        obtain ⟨budget, hbudget, rfl⟩ := hm' inner hlen
        refine ⟨budget, hbudget, fun r hr => bind_halted ?_⟩
        rw [body_eq, expectMark_eq, List.nil_append, bind_done (require_run (if_pos rfl))]
        exact bind_halted hr

end Leads

/-- What a parser of declarations does where the source ends before the declaration does. -/
structure Breaks (n : Nat) (bodies : α → List BodyNode) (p p' : Parser α) : Prop where
  ends : StuckAtEnd p'
  /-- If no body is entered, the declaration is stuck. -/
  stuck : ∀ (w : Cut) front log a rest, w.Keeps front →
    p ⟨w.source, true⟩ ⟨front ++ w.back, log⟩ = .done a ⟨rest, log⟩ → rest <:+ w.back →
    (bodies a = [] ∨ ∀ l ∈ front, l.isOpening = false) → Stuck log (p' ⟨w.pre, true⟩ ⟨front, log⟩)
  leads : Leads n bodies p p'

namespace Breaks

variable {p p' : Parser α}

/-- A parser that takes all that is left before the cut, or more, is stuck there. -/
theorem stuck_of_curtails (hp : Curtails p) {w : Cut} {front rest : List Lexeme}
    {log : List Diagnostic} {a : α} (hk : w.Keeps front)
    (hrun : p ⟨w.source, true⟩ ⟨front ++ w.back, log⟩ = .done a ⟨rest, log⟩)
    (hrest : rest <:+ w.back) : Stuck log (p ⟨w.pre, true⟩ ⟨front, log⟩) := by
  cases hp.halves w true front log a rest hk hrun with
  | behind suffix stuck => exact stuck rfl
  | @before kept suffix left same =>
      have hle := hrest.length_le
      rw [left, List.length_append] at hle
      obtain rfl : kept = [] := List.eq_nil_of_length_eq_zero (by omega)
      rw [same]
      exact .refl a log

/-- What brings no body. -/
theorem plain {F : Follow} {R : Rule α} (hp : Curtails p) (hm : Means F p R)
    (hR : R.Gives fun a => bodies a = []) : Breaks n bodies p p where
  ends := hp.ends
  stuck := fun _ _ _ _ _ hk hrun hrest _ => stuck_of_curtails hp hk hrun hrest
  leads := .plain hp.grows hm hR _

theorem mapped {q : Parser β} {R : Rule β} (f : β → α) (hq : Curtails q)
    (hm : Means anything q R) (hf : ∀ b, bodies (f b) = []) :
    Breaks n bodies (f <$> q) (f <$> q) :=
  plain (hq.map f) (hm.map f) (.bind fun b => .pure (hf b))

theorem unexpected (e : Expectation) : Breaks n bodies (unexpected e) (unexpected e) where
  ends := (Curtails.unexpected e).ends
  stuck := fun _ _ _ _ _ _ hrun => absurd hrun (unexpected_ne_done _ _ _ _ _)
  leads := .unexpected e _

/-- Nothing is entered by taking nothing. -/
theorem pure (a : α) : Breaks n bodies (Pure.pure a) (Pure.pure a) where
  ends := (Curtails.pure a).ends
  stuck := fun _ _ _ _ _ hk hrun hrest _ => stuck_of_curtails (.pure a) hk hrun hrest
  leads := by
    refine ⟨(Curtails.pure a).grows, ?_⟩
    intro w inBody header opening inner log a' rest b bs hin _ hrun
    obtain ⟨-, hrest⟩ := Outcome.done.inj hrun
    obtain ⟨rfl, -⟩ := Remainder.mk.inj hrest
    have hle := hin.behind.length_le
    simp only [List.length_append, List.length_cons] at hle
    omega

theorem after {q : Parser β} {f f' : β → Parser α} (hq : Curtails q) (hs : Braceless q)
    (hf : ∀ b, Breaks n bodies (f b) (f' b)) : Breaks n bodies (q >>= f) (q >>= f') where
  ends := fun env log hin => (hq.ends env log hin).bind hin fun b => (hf b).ends
  stuck := by
    intro w front log a rest hk hrun hrest hnone
    obtain ⟨b, mid, hfirst, hsecond, -, -⟩ := hq.grows.quiet_bind (fun b => (hf b).leads.grows) hrun
    cases hq.halves w true front log b mid hk hfirst with
    | behind suffix stuck => exact (stuck rfl).bind rfl fun b => (hf b).ends
    | before suffix left same =>
        subst left
        rw [bind_done same]
        exact (hf b).stuck w _ log a rest (hk.of_suffix suffix) hsecond hrest
          (hnone.imp_right fun h l hl => h l (suffix.subset hl))
  leads := .after hq hs fun b => (hf b).leads

theorem map {bodies' : β → List BodyNode} {f : α → β} (h : Breaks n bodies p p')
    (hf : ∀ a, bodies' (f a) = bodies a) : Breaks n bodies' (f <$> p) (f <$> p') where
  ends := by
    intro env log hin
    rw [← bind_pure_comp]
    exact (h.ends env log hin).bind hin fun a => (Curtails.pure _).ends
  stuck := by
    intro w front log b rest hk hrun hrest hnone
    rw [← bind_pure_comp] at hrun ⊢
    obtain ⟨a, mid, hfirst, hsecond, -, -⟩ :=
      h.leads.grows.quiet_bind (fun a => (Curtails.pure _).grows) hrun
    obtain ⟨rfl, hmid⟩ := Outcome.done.inj hsecond
    obtain ⟨rfl, -⟩ := Remainder.mk.inj hmid
    rw [hf] at hnone
    exact (h.stuck w front log a mid hk hfirst hrest hnone).bind rfl fun a => (Curtails.pure _).ends
  leads := h.leads.map hf

/-- A body, and what is made of it. -/
theorem body {k : BodyKind} {m m' : Parser k.Member} {g : List k.Member × Span → Parser α}
    {l : Nat} (hm : Orderly l true m)
    (hm' : ∀ inner : List Lexeme, inner.length < n →
      ∃ budget, inner.length ≤ budget.length ∧ m' = k.member budget)
    (hg : ∀ found, ∃ a s members bs, g found = Pure.pure a ∧ bodies a = ⟨k, s, members⟩ :: bs) :
    Breaks n bodies (Parser.body k m >>= g) (Parser.body k m' >>= g) := by
  have hends : StuckAtEnd (Parser.body k m' >>= g) := by
    intro env log hin
    rw [body_eq, expectMark_eq, bind_halted (bind_halted (require_run_nil _ _ hin))]
    exact .silent log
  refine ⟨hends, fun w front log a rest hk hrun hrest hnone => ?_, .body hm hm' hg⟩
  obtain ⟨found, mid, hbody, hpure⟩ := done_of_bind hrun
  obtain ⟨a', s, members, bs', heq, ha'⟩ := hg found
  rw [heq] at hpure
  obtain ⟨rfl, -⟩ := Outcome.done.inj hpure
  rw [ha'] at hnone
  cases front with
  | nil => exact hends _ log rfl
  | cons l front =>
      have hfirst := isOpening_of_body (hk.clean l List.mem_cons_self) hbody
      cases hfirst.symm.trans (hnone.resolve_left nofun l List.mem_cons_self)

/-! ### Declarations -/

theorem oneof : Breaks n Oneof.bodies oneof oneof := by
  unfold Parser.oneof
  refine after (.expectKeyword _) (.expectKeyword _) fun start => after .ident .ident fun name => ?_
  exact body (l := 0) .oneofMember (fun inner _ => ⟨inner, Nat.le_refl _, rfl⟩)
    fun found => ⟨_, _, _, _, rfl, rfl⟩

theorem extend : Breaks n Extend.bodies extend extend := by
  unfold Parser.extend
  refine after (.expectKeyword _) (.expectKeyword _) fun start =>
    after (.typeName _) (.typeName rfl) fun extendee => ?_
  exact body (l := 0) .extendMember (fun inner _ => ⟨inner, Nat.le_refl _, rfl⟩)
    fun found => ⟨_, _, _, _, rfl, rfl⟩

theorem enum : Breaks n Enum.bodies enum enum := by
  unfold Parser.enum
  refine after (.expectKeyword _) (.expectKeyword _) fun start => after .ident .ident fun name => ?_
  exact body (l := 0) .enumMember (fun inner _ => ⟨inner, Nat.le_refl _, rfl⟩)
    fun found => ⟨_, _, _, _, rfl, rfl⟩

theorem method : Breaks n Method.bodies method method := by
  unfold Parser.method
  refine after (.expectKeyword _) (.expectKeyword _) fun start => after .ident .ident fun name => ?_
  refine after .methodType .methodType fun input => ?_
  refine after (.expectKeyword _) (.expectKeyword _) fun _ => ?_
  refine after .methodType .methodType fun output => after .peek .peek fun t? => ?_
  dsimp only
  split
  · exact after (.expectMark _) (.expectMark (by decide)) fun s => pure _
  · exact body (l := 0) .methodMember (fun inner _ => ⟨inner, Nat.le_refl _, rfl⟩)
      fun found => ⟨_, _, _, _, rfl, rfl⟩
  · rw [unexpected_bind]
    exact unexpected _

theorem serviceMember : Breaks n ServiceMember.bodies serviceMember serviceMember := by
  unfold Parser.serviceMember
  refine after .peekKeyword .peekKeyword fun k? => ?_
  split
  · exact mapped _ .optionStatement .optionStatement fun _ => rfl
  · exact method.map fun _ => rfl
  · exact unexpected _

theorem service : Breaks n Service.bodies service service := by
  unfold Parser.service
  refine after (.expectKeyword _) (.expectKeyword _) fun start => after .ident .ident fun name => ?_
  exact body (l := 0) .serviceMember (fun inner _ => ⟨inner, Nat.le_refl _, rfl⟩)
    fun found => ⟨_, _, _, _, rfl, rfl⟩

/-- The budgets of the two runs have nothing to do with each other. -/
theorem messageWithin (l l' : Lexeme) (budget budget' : List Lexeme) :
    Breaks (budget'.length + 1) Message.bodies (messageWithin (l :: budget))
      (messageWithin (l' :: budget')) := by
  unfold Parser.messageWithin
  refine after (.expectKeyword _) (.expectKeyword _) fun start => after .ident .ident fun name => ?_
  exact body (l := budget.length) (Orderly.messageMember (Orderly.messageWithin budget))
    (fun inner hlen => ⟨budget', Nat.lt_succ_iff.mp hlen, rfl⟩)
    fun found => ⟨_, _, _, _, rfl, Message.bodies_eq _⟩

theorem messageMember {nested nested' : Parser Message}
    (h : Breaks n Message.bodies nested nested') :
    Breaks n MessageMember.bodies (messageMember nested) (messageMember nested') := by
  unfold Parser.messageMember
  refine after .peekKeyword .peekKeyword fun k? => ?_
  split
  · exact h.map fun _ => rfl
  · exact enum.map fun _ => rfl
  · exact oneof.map fun _ => rfl
  · exact extend.map fun _ => rfl
  · exact mapped _ .optionStatement .optionStatement fun _ => rfl
  · exact mapped _ .reservedStatement .reservedStatement fun _ => rfl
  · exact mapped _ .extensionsStatement .extensionsStatement fun _ => rfl
  · refine after .peek .peek fun t? => ?_
    split
    · exact mapped _ .field .field fun _ => rfl
    · exact mapped _ .field .field fun _ => rfl
    · exact unexpected _

/-- Every kind of member. -/
theorem member (l l' : Lexeme) (budget budget' : List Lexeme) (k : BodyKind) :
    Breaks (budget'.length + 1) k.bodies (k.member (l :: budget)) (k.member (l' :: budget')) := by
  cases k with
  | message => exact messageMember (messageWithin l l' budget budget')
  | oneof => exact plain .oneofMember (F := anything) .oneofMember fun _ _ _ _ _ _ => rfl
  | extend => exact plain .extendMember (F := anything) .extendMember fun _ _ _ _ _ _ => rfl
  | enum => exact plain .enumMember (F := anything) .enumMember fun _ _ _ _ _ _ => rfl
  | service => exact serviceMember
  | method => exact plain .methodMember (F := anything) .methodMember fun _ _ _ _ _ _ => rfl

end Breaks

namespace Leads

theorem message : Leads n Message.bodies message message where
  grows := by
    intro env r m r' h
    unfold Parser.message at h
    cases hr : r.lexemes with
    | nil =>
        rw [hr] at h
        cases h
    | cons l budget =>
        rw [hr] at h
        rw [← hr]
        exact (Breaks.messageWithin l l budget []).leads.grows env r m r' h
  unclosed := by
    intro w inBody header opening inner log m rest b bs hin _ hrun hb
    obtain ⟨l, budget, hcons⟩ : ∃ l budget, header ++ .token (.mark .leftBrace) opening :: inner =
        l :: budget := List.exists_cons_of_ne_nil (List.append_ne_nil_of_right_ne_nil _ nofun)
    have hlen := congrArg List.length hcons
    simp only [List.length_append, List.length_cons] at hlen
    have h := (Breaks.messageWithin l l (budget ++ w.back) budget).leads.unclosed w inBody header
      opening inner log m rest b bs hin (by omega)
    unfold Parser.message at hrun ⊢
    rw [hcons] at hrun h ⊢
    exact h hrun hb

/-- Only a message, an enum, an extension and a service have bodies. -/
theorem statement : Leads n Statement.bodies statement statement := by
  unfold Parser.statement
  refine after .peekKeyword .peekKeyword fun k? => ?_
  split
  · refine plain (.of_orderly (n := 0) .dialectStatement) (F := anything) .dialectStatement ?_ _
    refine .bind fun _ => .bind fun _ => .bind fun value => ?_
    dsimp only
    split
    · exact .bind fun _ => .bind fun _ => .pure rfl
    · exact .bind fun _ => .pure rfl
  · exact plain (.of_orderly (n := 0) (.map _ .packageStatement)) (F := anything)
      (.map _ .packageStatement) (.bind fun _ => .pure rfl) _
  · exact plain (.of_orderly (n := 0) (.map _ .importStatement)) (F := anything)
      (.map _ .importStatement) (.bind fun _ => .pure rfl) _
  · exact plain (.of_orderly (n := 0) (.map _ .optionStatement)) (F := anything)
      (.map _ .optionStatement) (.bind fun _ => .pure rfl) _
  · exact message.map fun _ => rfl
  · exact Breaks.enum.leads.map fun _ => rfl
  · exact Breaks.extend.leads.map fun _ => rfl
  · exact Breaks.service.leads.map fun _ => rfl
  · exact unexpected _ _

end Leads

end ProtoSchema.Parser
