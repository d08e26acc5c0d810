/-
Which bodies are open at an offset.

A body is open from behind its opening brace up to its closing brace.  Where the source is cut
at an offset between two tokens, a declaration that lies before the offset or behind it has no body
that is open there.  A declaration that the cut goes through has one only if the cut lies behind
its first opening brace, and then the body behind that brace is open, and any other that is open is
within it.
-/
import ProtoSchema.Proofs.Layout.Filled
import ProtoSchema.Proofs.Truncation.Declarations

namespace ProtoSchema

open ProtoSchema.Parser (Entered)

theorem mem_of_isOpening {ls : List Lexeme} {s : Span}
    (h : s ∈ spans (ls.filter Lexeme.isOpening)) : .token (.mark .leftBrace) s ∈ ls := by
  obtain ⟨l, hl, hs⟩ := mem_spans.mp h
  obtain ⟨hmem, hopening⟩ := List.mem_filter.mp hl
  unfold Lexeme.isOpening at hopening
  split at hopening
  · cases hs
    exact hmem
  · cases hopening

/-- A body is open at an offset: its opening brace lies before, its closing brace does not. -/
def BodyNode.OpenAt (source : List Char) (offset : Nat) (b : BodyNode) (opening : Span) : Prop :=
  ∃ closing, b.Braces source opening closing ∧ opening.stop ≤ offset ∧ offset < closing.stop

/-- The innermost body that is open at an offset, which is the one whose brace stands last. -/
structure Innermost (source : List Char) (offset : Nat) (bodies : List BodyNode) (b : BodyNode)
    (opening : Span) : Prop where
  mem : b ∈ bodies
  isOpen : b.OpenAt source offset opening
  last : ∀ b' ∈ bodies, ∀ opening', b'.OpenAt source offset opening' →
    opening'.start ≤ opening.start

def NoneOpen (source : List Char) (offset : Nat) (bodies : List BodyNode) : Prop :=
  ∀ b ∈ bodies, ∀ opening, ¬ b.OpenAt source offset opening

/--
What is reported where the source ends within a body: the kind and the brace of the innermost
body that is open, or those of the body itself if none within it is.
-/
inductive Reported (source : List Char) (offset : Nat) (bodies : List BodyNode) (kind : BodyKind)
    (opening : Span) : BodyKind → Span → Prop
  | own (none : NoneOpen source offset bodies) :
      Reported source offset bodies kind opening kind opening
  | inner {b : BodyNode} {s : Span} (innermost : Innermost source offset bodies b s) :
      Reported source offset bodies kind opening b.kind s

variable {source : List Char} {offset : Nat} {bodies bodies' : List BodyNode} {b : BodyNode}
  {opening : Span}

instance (source : List Char) (b : BodyNode) (opening closing : Span) :
    Decidable (b.Braces source opening closing) :=
  decidable_of_iff
    (.token (.mark .leftBrace) opening ∈ scan source ∧
      .token (.mark .rightBrace) closing ∈ scan source ∧ b.span.start ≤ opening.start ∧
      (∀ s ∈ spans ((scan source).filter Lexeme.isOpening), b.span.start ≤ s.start →
        opening.start ≤ s.start) ∧
      opening.stop ≤ closing.start ∧ closing.stop = b.span.stop)
    ⟨fun ⟨opens, closes, after, first, ordered, last⟩ =>
      ⟨opens, closes, after,
        fun s hs => first s (mem_spans_of_token (List.mem_filter.mpr ⟨hs, rfl⟩)), ordered, last⟩,
    fun ⟨opens, closes, after, first, ordered, last⟩ =>
      ⟨opens, closes, after, fun s hs => first s (mem_of_isOpening hs), ordered, last⟩⟩

/-- An offset at which a body is open lies within its declaration. -/
theorem BodyNode.OpenAt.inside (h : b.OpenAt source offset opening) :
    b.span.start < offset ∧ offset < b.span.stop := by
  obtain ⟨closing, hbraces, hopening, hclosing⟩ := h
  have hlt := start_lt_stop_of_mem_scan (mem_spans_of_token hbraces.opens)
  have hafter := hbraces.after
  have hlast := hbraces.last
  omega

namespace NoneOpen

theorem nil : NoneOpen source offset [] := fun _ hb => absurd hb List.not_mem_nil

theorem append (h : NoneOpen source offset bodies) (h' : NoneOpen source offset bodies') :
    NoneOpen source offset (bodies ++ bodies') := List.forall_mem_append.mpr ⟨h, h'⟩

theorem of_outside (h : ∀ b ∈ bodies, b.span.stop ≤ offset ∨ offset ≤ b.span.start) :
    NoneOpen source offset bodies := by
  intro b hb opening ho
  have hin := ho.inside
  have hout := h b hb
  omega

end NoneOpen

namespace Innermost

theorem append_left (h : Innermost source offset bodies b opening)
    (h' : NoneOpen source offset bodies') :
    Innermost source offset (bodies' ++ bodies) b opening where
  mem := List.mem_append_right _ h.mem
  isOpen := h.isOpen
  last := List.forall_mem_append.mpr ⟨fun b hb s hs => absurd hs (h' b hb s), h.last⟩

theorem append_right (h : Innermost source offset bodies b opening)
    (h' : NoneOpen source offset bodies') :
    Innermost source offset (bodies ++ bodies') b opening where
  mem := List.mem_append_left _ h.mem
  isOpen := h.isOpen
  last := List.forall_mem_append.mpr ⟨h.last, fun b hb s hs => absurd hs (h' b hb s)⟩

end Innermost

namespace Reported

variable {kind k : BodyKind} {s : Span}

theorem append_left (h : Reported source offset bodies kind opening k s)
    (h' : NoneOpen source offset bodies') :
    Reported source offset (bodies' ++ bodies) kind opening k s := by
  cases h with
  | own none => exact .own (h'.append none)
  | inner innermost => exact .inner (innermost.append_left h')

/-- The body itself is open, and the others are within it. -/
theorem exists_innermost (h : Reported source offset bodies b.kind opening k s)
    (ho : b.OpenAt source offset opening) (hin : ∀ b' ∈ bodies, b.span.start ≤ b'.span.start) :
    ∃ b', Innermost source offset (b :: bodies) b' s ∧ b'.kind = k := by
  -- Every brace behind the start of the declaration stands behind its own.
  have hfirst {t t' : Span} (ht : b.OpenAt source offset t) {b' : BodyNode}
      (ht' : b'.OpenAt source offset t') (hle : b.span.start ≤ b'.span.start) :
      t.start ≤ t'.start := by
    obtain ⟨closing, hbraces, -⟩ := ht
    obtain ⟨closing', hbraces', -⟩ := ht'
    exact hbraces.first t' hbraces'.opens (Nat.le_trans hle hbraces'.after)
  cases h with
  | own none =>
      refine ⟨b, ⟨List.mem_cons_self, ho, fun b' hb' t ht => ?_⟩, rfl⟩
      rcases List.mem_cons.mp hb' with rfl | hb'
      · exact hfirst ht ho (Nat.le_refl _)
      · exact absurd ht (none b' hb' t)
  | @inner b' _ innermost =>
      have hle := hin b' innermost.mem
      refine ⟨b', ⟨List.mem_cons_of_mem _ innermost.mem, innermost.isOpen, fun c hc t ht => ?_⟩, rfl⟩
      rcases List.mem_cons.mp hc with rfl | hc
      · exact hfirst ht innermost.isOpen hle
      · exact innermost.last c hc t ht

end Reported

/-! ### A cut between two tokens -/

/-- A cut at an offset, and the tokens that stand before it. -/
structure Cut.Parts (w : Cut) (offset : Nat) (ls : List Lexeme) : Prop where
  scan : scan w.source = ls ++ w.back
  before : ∀ a ∈ spans ls, a.stop ≤ offset
  behind : ∀ b ∈ spans w.back, offset ≤ b.start
  keeps : w.Keeps ls

section Cuts

variable {w : Cut} {before front ls rest : List Lexeme} {α : Type} {span : α → Span}
  {bodiesOf : α → List BodyNode} {R : Rule α} {a : α}

theorem Cut.Parts.keeps_right (h : w.Parts offset (before ++ front)) : w.Keeps front :=
  h.keeps.of_suffix (List.suffix_append _ _)

/-- A declaration before the cut. -/
theorem noneOpen_of_before (hspan : Rule.Spans span R) (hshape : Rule.Shapes span bodiesOf R)
    (hw : w.Parts offset (before ++ front)) (hrest : rest <:+ front)
    (hR : R w.source (front ++ w.back) a [] (rest ++ w.back)) :
    NoneOpen w.source offset (bodiesOf a) := by
  refine .of_outside fun b hb => .inl ?_
  have hscan : scan w.source = before ++ (front ++ w.back) := by rw [hw.scan, List.append_assoc]
  obtain ⟨seg, hseg, hhull⟩ := hspan.exists_hull hR
  obtain ⟨⟨-, hstop⟩, -⟩ := filled_of_shaped hscan ⟨seg, hseg, hhull⟩ (hshape _ _ _ _ hR) b hb
  obtain ⟨c, hc, hlast⟩ := hhull.mem_last
  rw [← List.append_assoc] at hseg
  obtain rfl := List.append_cancel_right hseg
  have hle := hw.before c (by
    rw [spans_append, spans_append]
    exact List.mem_append_right _ (List.mem_append_left _ hc))
  omega

/-- A declaration behind the cut. -/
theorem noneOpen_of_behind (hspan : Rule.Spans span R) (hshape : Rule.Shapes span bodiesOf R)
    (hw : w.Parts offset before) (hls : ls <:+ w.back) (hR : R w.source ls a [] rest) :
    NoneOpen w.source offset (bodiesOf a) := by
  refine .of_outside fun b hb => .inr ?_
  obtain ⟨skipped, hback⟩ := hls
  have hscan : scan w.source = (before ++ skipped) ++ ls := by
    rw [hw.scan, ← hback, List.append_assoc]
  obtain ⟨seg, rfl, hhull⟩ := hspan.exists_hull hR
  obtain ⟨⟨hstart, -⟩, -⟩ := filled_of_shaped hscan ⟨seg, rfl, hhull⟩ (hshape _ _ _ _ hR) b hb
  obtain ⟨c, hc, hfirst⟩ := hhull.mem_first
  have hle := hw.behind c (by
    rw [← hback, spans_append, spans_append]
    exact List.mem_append_right _ (List.mem_append_left _ hc))
  omega

/-- Members behind the cut. -/
theorem noneOpen_of_members (hspan : Rule.Spans span R) (hshape : Rule.Shapes span bodiesOf R)
    (hw : w.Parts offset before) (hls : ls <:+ w.back) {as : List α}
    (h : Rule.Members R w.source ls as [] rest) :
    NoneOpen w.source offset (as.flatMap bodiesOf) := by
  intro b hb
  obtain ⟨a, ha, hb⟩ := List.mem_flatMap.mp hb
  obtain ⟨ls', mid, hsuf, hrule⟩ := h.derived hspan.consumes rfl a ha
  exact noneOpen_of_behind hspan hshape hw (hsuf.trans hls) hrule b hb

/-- Members that start at the cut. -/
theorem noneOpen_at_cut (hspan : Rule.Spans span R) (hshape : Rule.Shapes span bodiesOf R)
    (hw : w.Parts offset (before ++ [])) (hls : ls = [] ++ w.back) {as : List α}
    (h : Rule.Members R w.source ls as [] rest) :
    NoneOpen w.source offset (as.flatMap bodiesOf) := by
  rw [List.append_nil] at hw
  exact noneOpen_of_members hspan hshape hw (hls ▸ List.suffix_refl _) h

/-- A declaration of which only tokens other than opening braces stand before the cut. -/
theorem noneOpen_of_unopened (hspan : Rule.Spans span R) (hshape : Rule.Shapes span bodiesOf R)
    (hw : w.Parts offset (before ++ front)) (hR : R w.source (front ++ w.back) a [] rest)
    (hfront : ∀ l ∈ front, l.isOpening = false) : NoneOpen w.source offset (bodiesOf a) := by
  rintro b hb opening ⟨closing, hbraces, hopening, -⟩
  have hscan : scan w.source = before ++ (front ++ w.back) := by rw [hw.scan, List.append_assoc]
  obtain ⟨seg, hseg, hhull⟩ := hspan.exists_hull hR
  obtain ⟨⟨hstart, -⟩, -⟩ := filled_of_shaped hscan ⟨seg, hseg, hhull⟩ (hshape _ _ _ _ hR) b hb
  rw [hseg] at hscan
  obtain ⟨-, horder, -⟩ := order_of_scan hscan
  have hmem := hbraces.opens
  have hlt := start_lt_stop_of_mem_scan (mem_spans_of_token hmem)
  have hafter := hbraces.after
  rw [hw.scan, List.append_assoc, List.mem_append, List.mem_append] at hmem
  rcases hmem with hmem | hmem | hmem
  · obtain ⟨c, hc, hfirst⟩ := hhull.mem_first
    have hle := horder opening (mem_spans_of_token hmem) c hc
    omega
  · cases hfront _ hmem
  · have hle := hw.behind opening (mem_spans_of_token hmem)
    omega

/--
Where the cut lies in a declaration that it goes through.  Either no body of the declaration is
open there, or the cut lies among the members of its body.
-/
inductive Parted (w : Cut) (offset : Nat) (front rest : List Lexeme) (s : Span) :
    List BodyNode → Prop
  | outside {bodies : List BodyNode} (none : NoneOpen w.source offset bodies)
      (unopened : bodies = [] ∨ ∀ l ∈ front, l.isOpening = false) :
      Parted w offset front rest s bodies
  | inside {k : BodyKind} {header inner : List Lexeme} {ms : List k.Member} {members : List Span}
      {opening closing : Span}
      (tokens : front = header ++ .token (.mark .leftBrace) opening :: inner)
      (entered : Entered w header opening inner rest)
      (derived : Rule.Members k.rule w.source (inner ++ w.back) ms []
        (.token (.mark .rightBrace) closing :: rest))
      (behind : .token (.mark .rightBrace) closing :: rest <:+ w.back)
      (isOpen : BodyNode.OpenAt w.source offset ⟨k, s, members⟩ opening)
      (within : ∀ b ∈ ms.flatMap k.bodies, s.start ≤ b.span.start) :
      Parted w offset front rest s (⟨k, s, members⟩ :: ms.flatMap k.bodies)

/-- What stands before the cut has an opening brace behind the header, or it has none. -/
theorem header_of_opening {header tail back : List Lexeme}
    (h : header ++ tail = front ++ back) (hheader : ∀ l ∈ header, l.isOpening = false)
    (hfront : ¬ ∀ l ∈ front, l.isOpening = false) :
    ∃ l inner, front = header ++ l :: inner ∧ tail = l :: inner ++ back := by
  rcases List.append_eq_append_iff.mp h with ⟨as, rfl, htail⟩ | ⟨bs, rfl, -⟩
  · cases as with
    | nil =>
        rw [List.append_nil] at hfront
        exact absurd hheader hfront
    | cons l inner => exact ⟨l, inner, rfl, htail⟩
  · exact absurd (fun l hl => hheader l (List.mem_append_left _ hl)) hfront

theorem parted (hspan : Rule.Spans span R) (hshape : Rule.Shapes span bodiesOf R)
    (hw : w.Parts offset (before ++ front)) (hR : R w.source (front ++ w.back) a [] rest)
    (hrest : rest <:+ w.back) (hlt : rest.length < w.back.length) :
    Parted w offset front rest (span a) (bodiesOf a) := by
  -- Before the opening brace of the declaration no body of it is open.
  by_cases hfront : ∀ l ∈ front, l.isOpening = false
  · exact .outside (noneOpen_of_unopened hspan hshape hw hR hfront) (.inr hfront)
  have hscan : scan w.source = before ++ (front ++ w.back) := by rw [hw.scan, List.append_assoc]
  obtain ⟨seg, hseg, hhull⟩ := hspan.exists_hull hR
  have hshaped := hshape _ _ _ _ hR
  have hwithin := filled_of_shaped hscan ⟨seg, hseg, hhull⟩ hshaped
  revert hwithin hshaped
  generalize bodiesOf a = bodies
  intro hshaped hwithin
  cases hshaped with
  | plain => exact .outside .nil (.inl rfl)
  | @declaration k header tail members inner' tokens unopened enclosed =>
      obtain ⟨l, inner, rfl, htail⟩ := header_of_opening tokens.symm unopened hfront
      obtain ⟨stop, hstop⟩ : ∃ stop, stop = (span a).stop := ⟨_, rfl⟩
      rw [← hstop] at enclosed
      rw [List.cons_append] at htail
      cases enclosed with
      | semicolon method =>
          have hlen := congrArg List.length htail
          simp only [List.length_cons, List.length_append] at hlen
          omega
      | @body opening closing _ ms _ derived gathered =>
          obtain ⟨rfl, rfl⟩ := List.cons.inj htail
          obtain ⟨line, hline, -⟩ := derived.lined k.spans_rule
          -- What is behind the declaration is behind the cut, and its closing brace with it.
          have hclosing : .token (.mark .rightBrace) closing :: rest <:+ w.back := by
            have hsuf : .token (.mark .rightBrace) closing :: rest <:+ inner ++ w.back :=
              ⟨line, hline.symm⟩
            exact List.suffix_of_suffix_length_le hsuf (List.suffix_append _ _) hlt
          refine .inside rfl ⟨hw.keeps_right, unopened, hrest⟩ derived hclosing
            ⟨closing, ?_, ?_, ?_⟩ fun b hb => (hwithin b (List.mem_cons_of_mem _ hb)).1.1
          · obtain rfl : seg = header ++ .token (.mark .leftBrace) opening ::
                (line ++ [.token (.mark .rightBrace) closing]) := by
              refine eq_of_append_rest hseg ?_
              rw [List.append_assoc, List.cons_append, hline]
              simp
            rw [hseg] at hscan
            exact BodyNode.braces_of_scan hscan unopened hhull
          · refine hw.before opening (mem_spans_of_token (t := .mark .leftBrace) ?_)
            simp
          · have hmem := hclosing.subset List.mem_cons_self
            have hle := hw.behind closing (mem_spans_of_token hmem)
            have hlt := start_lt_stop_of_mem_scan (mem_spans_of_token (s := closing)
              (hw.scan ▸ List.mem_append_right _ hmem))
            omega

end Cuts

end ProtoSchema
