/-
Nothing is dropped.

Where a source is parsed without a remark, its tokens are those of a derivation, and a
derivation leaves none out.  The statements of the file stand in a line, and so do the members
of every body between its braces.  The induction goes from a body to the bodies of its members,
which have fewer lexemes in front of them.
-/
import ProtoSchema.Proofs.Layout.Lines
import ProtoSchema.Proofs.Positions.Parsed

namespace ProtoSchema

variable {source : List Char} {before ls rest : List Lexeme}

/-! ### Members and statements stand in a line -/

namespace Rule

variable {α : Type} {R : Rule α} {as : List α} {ds : List Diagnostic}

theorem Spans.consumes {span : α → Span} (h : Spans span R) : Consumes R := by
  intro source ls a ds rest hR
  obtain ⟨seg, rfl, -⟩ := h.exists_hull hR
  exact List.suffix_append _ _

theorem Members.lined {span : α → Span} (hR : Spans span R) (h : Members R source ls as ds rest) :
    ∃ seg, ls = seg ++ rest ∧ Lined seg (as.map span) := by
  induction h with
  | nil ls => exact ⟨[], rfl, .nil⟩
  | semicolon others ih =>
      obtain ⟨seg, rfl, hseg⟩ := ih
      exact ⟨_ :: seg, rfl, .semicolon hseg⟩
  | member first others ih =>
      obtain ⟨seg₁, rfl, h₁⟩ := hR.exists_hull first
      obtain ⟨seg₂, rfl, h₂⟩ := ih
      exact ⟨seg₁ ++ seg₂, (List.append_assoc _ _ _).symm, .node h₁ h₂⟩

/-- Where there was nothing to remark on, each member is derived from some of the lexemes. -/
theorem Members.derived (hR : Consumes R) (h : Members R source ls as ds rest) (hds : ds = []) :
    ∀ a ∈ as, ∃ ls' mid, ls' <:+ ls ∧ R source ls' a [] mid := by
  induction h with
  | nil ls => exact fun a ha => absurd ha List.not_mem_nil
  | semicolon others ih =>
      intro a ha
      obtain ⟨ls', mid, hsuf, ha⟩ := ih hds a ha
      exact ⟨ls', mid, hsuf.trans (List.suffix_cons _ _), ha⟩
  | @member ls mid rest a as ds₁ ds₂ first others ih =>
      obtain ⟨rfl, rfl⟩ := List.append_eq_nil_iff.mp hds
      intro b hb
      rcases List.mem_cons.mp hb with rfl | hb
      · exact ⟨ls, mid, List.suffix_refl ls, first⟩
      · obtain ⟨ls', mid', hsuf, hb⟩ := ih rfl b hb
        exact ⟨ls', mid', hsuf.trans (hR _ _ _ _ _ first), hb⟩

end Rule

/-! ### Braces -/

namespace BodyNode

/--
The braces of a body.  The first opening brace of the declaration is the one, and the brace
with which the declaration ends is the other.
-/
structure Braces (source : List Char) (b : BodyNode) (opening closing : Span) : Prop where
  opens : .token (.mark .leftBrace) opening ∈ scan source
  closes : .token (.mark .rightBrace) closing ∈ scan source
  after : b.span.start ≤ opening.start
  first : ∀ s, .token (.mark .leftBrace) s ∈ scan source → b.span.start ≤ s.start →
    opening.start ≤ s.start
  ordered : opening.stop ≤ closing.start
  last : closing.stop = b.span.stop

/-- A body whose members leave nothing between its braces but semicolons. -/
def Filled (source : List Char) (b : BodyNode) : Prop :=
  ∃ opening closing, b.Braces source opening closing ∧
    Tiled source ⟨opening.stop, closing.start⟩ b.members

/-- A method without a body: it ends with a semicolon, and has no brace. -/
structure Bodiless (source : List Char) (b : BodyNode) : Prop where
  method : b.kind = .method
  members : b.members = []
  ends : ∃ s, .token (.mark .semicolon) s ∈ scan source ∧ s.stop = b.span.stop
  unopened : ∀ s, .token (.mark .leftBrace) s ∈ scan source → b.span.start ≤ s.start →
    b.span.stop ≤ s.start

variable {b : BodyNode} {header inner : List Lexeme} {opening closing : Span}

/-- An opening brace that does not start before a stretch stands in it or behind it. -/
theorem start_of_isOpening {s : Span} {seg : List Lexeme}
    (hscan : scan source = before ++ (seg ++ rest)) (hseg : Hull seg s) {t : Span}
    (ht : .token (.mark .leftBrace) t ∈ scan source) (hstart : s.start ≤ t.start) :
    .token (.mark .leftBrace) t ∈ seg ∨ s.stop ≤ t.start := by
  obtain ⟨-, hbefore, hrest⟩ := order_of_scan hscan
  have hlt := start_lt_stop_of_mem_scan (mem_spans_of_token ht)
  rw [hscan, List.mem_append, List.mem_append] at ht
  rcases ht with ht | ht | ht
  · obtain ⟨a, ha, hfirst⟩ := hseg.mem_first
    have hle := hbefore t (mem_spans_of_token ht) a ha
    omega
  · exact .inl ht
  · obtain ⟨a, ha, hlast⟩ := hseg.mem_last
    have hle := hrest a ha t (mem_spans_of_token ht)
    exact .inr (hlast ▸ hle)

theorem not_mem_of_unopened {t : Span} (h : ∀ l ∈ header, l.isOpening = false) :
    .token (.mark .leftBrace) t ∉ header := by
  intro hmem
  cases h _ hmem

/-- The brace behind a header is the first one, and the brace at the end belongs to it. -/
theorem braces_of_scan
    (hscan : scan source = before ++ ((header ++ .token (.mark .leftBrace) opening ::
      (inner ++ [.token (.mark .rightBrace) closing])) ++ rest))
    (hheader : ∀ l ∈ header, l.isOpening = false)
    (hseg : Hull (header ++ .token (.mark .leftBrace) opening ::
      (inner ++ [.token (.mark .rightBrace) closing])) b.span) :
    b.Braces source opening closing := by
  obtain ⟨ho, -, -⟩ := order_of_scan hscan
  obtain ⟨-, htail, -⟩ := ho.append
  have htail : InOrder 0 (opening :: spans (inner ++ [.token (.mark .rightBrace) closing])) := htail
  have hclosing : closing ∈ spans (inner ++ [.token (.mark .rightBrace) closing]) := by
    rw [spans_append]
    exact List.mem_append_right _ (List.mem_singleton_self closing)
  have hinner := htail.of_cons.2.2
  have hopening : opening ∈ spans (header ++ .token (.mark .leftBrace) opening ::
      (inner ++ [.token (.mark .rightBrace) closing])) := by
    rw [spans_append]
    exact List.mem_append_right _ List.mem_cons_self
  refine ⟨?_, ?_, ?_, fun t ht hstart => ?_, (hinner.1 closing hclosing).1, ?_⟩
  · rw [hscan]
    simp
  · rw [hscan]
    simp
  · exact (hseg.bounds ho opening hopening).1
  · -- A brace that opens lies in the header, is this one, or lies behind it.
    rcases start_of_isOpening hscan hseg ht hstart with ht | hstop
    · rcases List.mem_append.mp ht with ht | ht
      · exact absurd ht (not_mem_of_unopened hheader)
      · rcases List.mem_cons.mp ht with heq | ht
        · rw [(Lexeme.token.inj heq).2]
        · have hle := (hinner.1 t (mem_spans_of_token ht)).1
          have hlt := htail.of_cons.2.1
          omega
    · have hle := (hseg.bounds ho opening hopening).2
      have hlt := htail.of_cons.2.1
      omega
  · obtain ⟨front, t, a, hlast, hstop⟩ := hseg.last
    rw [← List.cons_append, ← List.append_assoc] at hlast
    obtain ⟨-, heq⟩ := List.append_inj' hlast rfl
    obtain ⟨heq, -⟩ := List.cons.inj heq
    rw [(Lexeme.token.inj heq).2]
    exact hstop

/-- A declaration that ends with a semicolon in the place of a body. -/
theorem bodiless_of_scan
    (hscan : scan source = before ++ ((header ++ [.token (.mark .semicolon) closing]) ++ rest))
    (hheader : ∀ l ∈ header, l.isOpening = false)
    (hseg : Hull (header ++ [.token (.mark .semicolon) closing]) b.span)
    (hkind : b.kind = .method) (hmembers : b.members = []) : b.Bodiless source := by
  refine ⟨hkind, hmembers, ⟨closing, ?_, ?_⟩, fun t ht hstart => ?_⟩
  · rw [hscan]
    simp
  · obtain ⟨front, t, a, hlast, hstop⟩ := hseg.last
    obtain ⟨-, heq⟩ := List.append_inj' hlast rfl
    obtain ⟨heq, -⟩ := List.cons.inj heq
    rw [(Lexeme.token.inj heq).2]
    exact hstop
  · rcases start_of_isOpening hscan hseg ht hstart with ht | hle
    · rcases List.mem_append.mp ht with ht | ht
      · exact absurd ht (not_mem_of_unopened hheader)
      · cases List.mem_singleton.mp ht
    · exact hle

end BodyNode

/-! ### Every body is filled -/

/-- Two ways to cut the same lexemes in front of the same rest. -/
theorem eq_of_append_rest {seg front part : List Lexeme} (hls : ls = seg ++ rest)
    (tokens : ls = front ++ part ++ rest) : seg = front ++ part :=
  List.append_cancel_right (hls.symm.trans tokens)

/-- What has been read as a declaration has its bodies filled, and they lie within it. -/
theorem filled_of_shaped {s : Span} {bodies : List BodyNode} (hscan : scan source = before ++ ls)
    (hhull : ∃ seg, ls = seg ++ rest ∧ Hull seg s) (h : Rule.Shaped source ls rest s bodies) :
    ∀ b ∈ bodies, (s.start ≤ b.span.start ∧ b.span.stop ≤ s.stop) ∧
      (b.Filled source ∨ b.Bodiless source) := by
  induction hn : ls.length using Nat.strongRecOn generalizing before ls rest s bodies with
  | ind n ih =>
  obtain ⟨seg, hls, hseg⟩ := hhull
  rw [hls] at hscan
  cases h with
  | plain => exact fun b hb => absurd hb List.not_mem_nil
  | @declaration k header tail members inner tokens unopened enclosed =>
    obtain ⟨stop, hstop⟩ : ∃ stop, stop = s.stop := ⟨_, rfl⟩
    rw [← hstop] at enclosed
    intro b hb
    cases enclosed with
    | @semicolon t method =>
        obtain rfl := List.mem_singleton.mp hb
        obtain rfl := eq_of_append_rest hls (tokens.trans (List.append_assoc header [_] rest).symm)
        exact ⟨⟨Nat.le_refl _, Nat.le_refl _⟩,
          .inr (BodyNode.bodiless_of_scan hscan unopened hseg method rfl)⟩
    | @body opening closing mid ms members derived gathered =>
        obtain ⟨line, rfl, hline⟩ := derived.lined k.spans_rule
        obtain rfl : seg = header ++ .token (.mark .leftBrace) opening ::
            (line ++ [.token (.mark .rightBrace) closing]) :=
          eq_of_append_rest hls (by rw [tokens]; simp)
        have hown (spans : List Span) : BodyNode.Braces source ⟨k, s, spans⟩ opening closing :=
          BodyNode.braces_of_scan hscan unopened hseg
        have hsplit : scan source = (before ++ header) ++ .token (.mark .leftBrace) opening ::
            (line ++ .token (.mark .rightBrace) closing :: rest) := by
          rw [hscan]
          simp
        rcases List.mem_cons.mp hb with rfl | hb
        · exact ⟨⟨Nat.le_refl _, Nat.le_refl _⟩,
            .inl ⟨opening, closing, hown _, (hline.tiled_between hsplit).perm gathered.symm⟩⟩
        · obtain ⟨m, hm, hb⟩ := List.mem_flatMap.mp hb
          obtain ⟨ls', mid, ⟨front, hfront⟩, hrule⟩ :=
            derived.derived k.spans_rule.consumes rfl m hm
          have hscan' : scan source =
              ((before ++ header) ++ .token (.mark .leftBrace) opening :: front) ++ ls' := by
            rw [hsplit, ← hfront]
            simp
          have hlt : ls'.length < n := by
            have hlen := congrArg List.length hfront
            rw [← hn, hls]
            simp only [List.length_append, List.length_cons, List.length_nil] at hlen ⊢
            omega
          obtain ⟨hin, hfilled⟩ := ih _ hlt hscan' (k.spans_rule.exists_hull hrule)
            (k.shapes_rule source ls' m mid hrule) rfl b hb
          -- the member lies between the braces, and these within the declaration
          obtain ⟨hlo, -, hhi⟩ :=
            (hline.tiled_between hsplit).within (k.span m) (List.mem_map_of_mem hm)
          have hbraces := hown []
          have hafter := hbraces.after
          have hlast := hbraces.last
          have hopens := start_lt_stop_of_mem_scan (mem_spans_of_token hbraces.opens)
          have hcloses := start_lt_stop_of_mem_scan (mem_spans_of_token hbraces.closes)
          dsimp only at hafter hlast hlo hhi
          exact ⟨⟨by omega, by omega⟩, hfilled⟩

/-! ### A whole file -/

namespace Rule

/-- What statements amount to that have been read one behind the other without a remark. -/
structure StatementLine (source : List Char) (ls : List Lexeme) (draft last : Parser.Draft)
    (sts : List Statement) : Prop where
  members : Members statement source ls sts [] []
  spans : last.file.spans.Perm (sts.map Statement.span ++ draft.file.spans)
  bodies : ∀ b, b ∈ last.file.bodies ↔ b ∈ sts.flatMap Statement.bodies ∨ b ∈ draft.file.bodies

theorem Statements.line {draft last : Parser.Draft} {ds : List Diagnostic}
    (h : Statements source draft ls last ds) (hds : ds = []) :
    ∃ sts, StatementLine source ls draft last sts := by
  induction h with
  | nil draft => exact ⟨[], .nil [], .refl _, fun b => by simp⟩
  | semicolon others ih =>
      obtain ⟨sts, h⟩ := ih hds
      exact ⟨sts, .semicolon h.members, h.spans, h.bodies⟩
  | @statement draft last st ls mid ds₁ ds₂ first others ih =>
      obtain ⟨hfirst, rfl⟩ := List.append_eq_nil_iff.mp hds
      obtain ⟨rfl, hplace⟩ := List.append_eq_nil_iff.mp hfirst
      obtain ⟨sts, h⟩ := ih rfl
      refine ⟨st :: sts, .member first h.members, ?_, fun b => ?_⟩
      · exact (h.spans.trans ((File.perm_spans_place hplace).append_left _)).trans
          List.perm_middle
      · rw [h.bodies, File.mem_bodies_place hplace, List.flatMap_cons, List.mem_append]
        exact or_left_comm.trans or_assoc.symm

end Rule

/-- A file that is parsed without a remark consists of statements, and semicolons between them. -/
theorem line_of_parseFile {file : File} (h : parseFile source = .tree file []) :
    ∃ sts : List Statement, Rule.Members Rule.statement source (scan source) sts [] [] ∧
      file.spans.Perm (sts.map Statement.span) ∧
      ∀ b, b ∈ file.bodies ↔ b ∈ sts.flatMap Statement.bodies := by
  obtain ⟨last, hlast, rfl⟩ := (parseFile_eq_tree_iff (clean_of_parseFile h) file []).mp
    ⟨h, fun d hd => absurd hd List.not_mem_nil⟩
  obtain ⟨sts, hline⟩ := hlast.line rfl
  refine ⟨sts, hline.members, ?_, fun b => (hline.bodies b).trans (or_iff_left List.not_mem_nil)⟩
  have hspans := hline.spans
  rwa [show File.empty.spans = [] from rfl, List.append_nil] at hspans

/--
Where there is nothing to report, nothing has been dropped.  The statements of the file do not
overlap, nor do the members of a body, and all that lies between them is semicolons; only a
method can do without a body.
-/
theorem nothing_dropped {source : List Char} {file : File}
    (h : parseFile source = .tree file []) :
    Tiled source ⟨0, Utf8.size source⟩ file.spans ∧
      ∀ b ∈ file.bodies, b.Filled source ∨ b.Bodiless source := by
  obtain ⟨sts, hmembers, hspans, hbodies⟩ := line_of_parseFile h
  obtain ⟨line, hline, hlined⟩ := hmembers.lined Rule.Spans.statement
  rw [List.append_nil] at hline
  subst hline
  refine ⟨.perm hspans.symm ?_, fun b hb => ?_⟩
  · have hscan : scan source = [] ++ (scan source ++ []) := (List.append_nil _).symm
    exact hlined.tiled hscan (fun a ha => ⟨Nat.zero_le _, (fits_of_mem_scan ha).inside⟩)
      (fun a ha => absurd ha List.not_mem_nil) fun a ha => absurd ha List.not_mem_nil
  · obtain ⟨st, hst, hb⟩ := List.mem_flatMap.mp ((hbodies b).mp hb)
    obtain ⟨ls, mid, ⟨front, hfront⟩, hrule⟩ :=
      hmembers.derived Rule.Spans.statement.consumes rfl st hst
    exact (filled_of_shaped hfront.symm (Rule.Spans.statement.exists_hull hrule)
      (Rule.Shapes.statement source ls st mid hrule) b hb).2

/-- Bodies in bodies, stray semicolons, a method with a body and one without. -/
def nestedBodies : List Char :=
  "message A{;oneof k{int32 x=1;}};service S{rpc F(A)returns(A){}rpc G(A)returns(A);}".toList

theorem nothing_dropped_nestedBodies :
    ∃ file, parseFile nestedBodies = .tree file [] ∧ file.bodies.length = 5 ∧
      Tiled nestedBodies ⟨0, Utf8.size nestedBodies⟩ file.spans ∧
      ∀ b ∈ file.bodies, b.Filled nestedBodies ∨ b.Bodiless nestedBodies := by
  have hparse : ((parseFile nestedBodies).casesOn
      (fun file ds => ds.isEmpty && file.bodies.length == 5) (fun _ => false) : Bool) = true := by
    decide +kernel
  cases heq : parseFile nestedBodies with
  | unclosed ds =>
      rw [heq] at hparse
      cases hparse
  | tree file ds =>
      rw [heq] at hparse
      obtain ⟨hds, hlength⟩ := Bool.and_eq_true_iff.mp hparse
      obtain rfl : ds = [] := List.isEmpty_iff.mp hds
      exact ⟨file, rfl, beq_iff_eq.mp hlength, nothing_dropped heq⟩

end ProtoSchema
