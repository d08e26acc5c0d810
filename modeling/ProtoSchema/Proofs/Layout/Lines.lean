/-
Nodes in a line.

Members of a body and statements of a file stand one behind the other, each from its first
token to its last, with semicolons between them.  `Lined` says this of a stretch of tokens.
Tokens are in the order of the source and do not overlap, so neither do such nodes, and every
token that belongs to none of them is a semicolon: they tile the stretch.
-/
import ProtoSchema.Proofs.Layout.Declarations

namespace ProtoSchema

/-! ### Tokens in order -/

theorem mem_spans_of_token {ls : List Lexeme} {t : Token} {s : Span} (h : .token t s ∈ ls) :
    s ∈ spans ls := mem_spans.mpr ⟨_, h, rfl⟩

theorem InOrder.append {lo : Nat} {as bs : List Lexeme} (h : InOrder lo (spans (as ++ bs))) :
    InOrder lo (spans as) ∧ InOrder lo (spans bs) ∧
      ∀ a ∈ spans as, ∀ b ∈ spans bs, a.stop ≤ b.start := by
  rw [spans_append] at h
  obtain ⟨hbounds, hpairs⟩ := h
  obtain ⟨ha, hb⟩ := List.forall_mem_append.mp hbounds
  obtain ⟨hpa, hpb, hcross⟩ := List.pairwise_append.mp hpairs
  exact ⟨⟨ha, hpa⟩, ⟨hb, hpb⟩, hcross⟩

/-- What stands before a part of a scan, in it, and behind it. -/
theorem order_of_scan {source : List Char} {before seg behind : List Lexeme}
    (h : scan source = before ++ (seg ++ behind)) :
    InOrder 0 (spans seg) ∧ (∀ a ∈ spans before, ∀ b ∈ spans seg, a.stop ≤ b.start) ∧
      ∀ a ∈ spans seg, ∀ b ∈ spans behind, a.stop ≤ b.start := by
  have horder := inOrder_scan source
  rw [h] at horder
  obtain ⟨-, hrest, hbefore⟩ := horder.append
  obtain ⟨hseg, -, hbehind⟩ := hrest.append
  refine ⟨hseg, fun a ha b hb => hbefore a ha b ?_, hbehind⟩
  rw [spans_append]
  exact List.mem_append_left _ hb

/-! ### From the first token to the last -/

/-- The first token of a stretch starts where a span starts, the last one stops where it stops. -/
structure Hull (seg : List Lexeme) (s : Span) : Prop where
  first : ∃ t a tail, seg = .token t a :: tail ∧ a.start = s.start
  last : ∃ front t b, seg = front ++ [.token t b] ∧ b.stop = s.stop

namespace Hull

variable {seg : List Lexeme} {s : Span} {lo : Nat}

/-- The lexemes of a stretch lie within its span. -/
theorem bounds (h : Hull seg s) (ho : InOrder lo (spans seg)) :
    ∀ a ∈ spans seg, s.start ≤ a.start ∧ a.stop ≤ s.stop := by
  obtain ⟨⟨t, a, tail, hfirst, hstart⟩, front, u, b, hlast, hstop⟩ := h
  intro c hc
  constructor
  · rw [hfirst] at ho hc
    rcases List.mem_cons.mp hc with rfl | hc
    · exact hstart.ge
    · have hpair := (ho.of_cons.2.2.1 c hc).1
      have hlt := ho.of_cons.2.1
      omega
  · rw [hlast] at ho hc
    rw [spans_append, List.mem_append] at hc
    obtain ⟨-, hb, hcross⟩ := ho.append
    rcases hc with hc | hc
    · have hpair := hcross c hc b (List.mem_singleton_self b)
      have hlt := hb.of_cons.2.1
      omega
    · obtain rfl := List.mem_singleton.mp hc
      exact hstop.le

theorem mem_first (h : Hull seg s) : ∃ a ∈ spans seg, a.start = s.start := by
  obtain ⟨⟨t, a, tail, rfl, hstart⟩, -⟩ := h
  exact ⟨a, List.mem_cons_self, hstart⟩

theorem mem_last (h : Hull seg s) : ∃ b ∈ spans seg, b.stop = s.stop := by
  obtain ⟨-, front, t, b, rfl, hstop⟩ := h
  refine ⟨b, ?_, hstop⟩
  rw [spans_append]
  exact List.mem_append_right _ (List.mem_singleton_self b)

theorem start_lt_stop (h : Hull seg s) (ho : InOrder lo (spans seg)) : s.start < s.stop := by
  obtain ⟨a, ha, hstart⟩ := h.mem_first
  have hlt := (ho.1 a ha).2
  have hle := (h.bounds ho a ha).2
  omega

end Hull

/-- What a rule derives fills the span of its value. -/
theorem Rule.Spans.exists_hull {α : Type} {span : α → Span} {R : Rule α} (h : Rule.Spans span R)
    {source : List Char} {ls rest : List Lexeme} {a : α} {ds : List Diagnostic}
    (hR : R source ls a ds rest) : ∃ seg, ls = seg ++ rest ∧ Hull seg (span a) := by
  obtain ⟨t, s, tail, hfirst, hstart⟩ := h.starts source ls a ds rest hR
  obtain ⟨front, u, b, hlast, hstop⟩ := h.ends source ls a ds rest hR
  refine ⟨front ++ [.token u b], by rw [hlast, List.append_assoc]; rfl, ?_,
    front, u, b, rfl, hstop⟩
  cases front with
  | nil =>
      rw [hfirst] at hlast
      obtain ⟨heq, -⟩ := List.cons.inj hlast
      exact ⟨t, s, [], congrArg (· :: []) heq.symm, hstart⟩
  | cons l front =>
      rw [hfirst] at hlast
      obtain ⟨rfl, -⟩ := List.cons.inj hlast
      exact ⟨t, s, _, rfl, hstart⟩

/-! ### Nodes in a line -/

/-- Nodes one behind the other in a stretch of tokens, with semicolons between them. -/
inductive Lined : List Lexeme → List Span → Prop
  | nil : Lined [] []
  | semicolon {s : Span} {ls : List Lexeme} {nodes : List Span} (others : Lined ls nodes) :
      Lined (.token (.mark .semicolon) s :: ls) nodes
  | node {seg ls : List Lexeme} {s : Span} {nodes : List Span} (first : Hull seg s)
      (others : Lined ls nodes) : Lined (seg ++ ls) (s :: nodes)

/-- Two stretches of the source that have no byte in common. -/
def Span.Apart (a b : Span) : Prop := a.stop ≤ b.start ∨ b.stop ≤ a.start

theorem Span.Apart.symm {a b : Span} (h : a.Apart b) : b.Apart a := Or.symm h

/-- Nodes that do not overlap and leave nothing between them but semicolons. -/
structure Tiled (source : List Char) (outer : Span) (nodes : List Span) : Prop where
  apart : nodes.Pairwise Span.Apart
  within : ∀ m ∈ nodes, outer.start ≤ m.start ∧ m.start < m.stop ∧ m.stop ≤ outer.stop
  covered : ∀ t s, .token t s ∈ scan source → outer.start ≤ s.start → s.stop ≤ outer.stop →
    t = .mark .semicolon ∨ ∃ m ∈ nodes, m.start ≤ s.start ∧ s.stop ≤ m.stop

theorem Tiled.perm {source : List Char} {outer : Span} {xs ys : List Span} (h : xs.Perm ys)
    (hx : Tiled source outer xs) : Tiled source outer ys where
  apart := (h.pairwise_iff fun h => h.symm).mp hx.apart
  within m hm := hx.within m (h.mem_iff.mpr hm)
  covered t s hmem hstart hstop := (hx.covered t s hmem hstart hstop).imp_right
    fun ⟨m, hm, hin⟩ => ⟨m, h.mem_iff.mp hm, hin⟩

namespace Lined

variable {ls : List Lexeme} {nodes : List Span} {lo : Nat}

/-- Each node stands where some lexemes of the stretch stand. -/
theorem within (h : Lined ls nodes) (ho : InOrder lo (spans ls)) :
    ∀ m ∈ nodes, m.start < m.stop ∧ (∃ a ∈ spans ls, a.start = m.start) ∧
      ∃ b ∈ spans ls, b.stop = m.stop := by
  induction h with
  | nil => exact fun m hm => absurd hm List.not_mem_nil
  | @semicolon s ls nodes others ih =>
      intro m hm
      have ho' : InOrder lo (s :: spans ls) := ho
      obtain ⟨hlt, ⟨a, ha, hstart⟩, b, hb, hstop⟩ :=
        ih (ho'.of_cons.2.2.mono (Nat.le_trans ho'.of_cons.1 ho'.of_cons.2.1.le)) m hm
      exact ⟨hlt, ⟨a, List.mem_cons_of_mem _ ha, hstart⟩, b, List.mem_cons_of_mem _ hb, hstop⟩
  | node first others ih =>
      obtain ⟨hseg, hrest, -⟩ := ho.append
      intro m hm
      rw [spans_append]
      rcases List.mem_cons.mp hm with rfl | hm
      · obtain ⟨a, ha, hstart⟩ := first.mem_first
        obtain ⟨b, hb, hstop⟩ := first.mem_last
        exact ⟨first.start_lt_stop hseg, ⟨a, List.mem_append_left _ ha, hstart⟩,
          b, List.mem_append_left _ hb, hstop⟩
      · obtain ⟨hlt, ⟨a, ha, hstart⟩, b, hb, hstop⟩ := ih hrest m hm
        exact ⟨hlt, ⟨a, List.mem_append_right _ ha, hstart⟩, b, List.mem_append_right _ hb, hstop⟩

theorem pairwise (h : Lined ls nodes) (ho : InOrder lo (spans ls)) :
    nodes.Pairwise fun a b => a.stop ≤ b.start := by
  induction h with
  | nil => exact .nil
  | @semicolon s ls nodes others ih =>
      have ho' : InOrder lo (s :: spans ls) := ho
      exact ih (ho'.of_cons.2.2.mono (Nat.le_trans ho'.of_cons.1 ho'.of_cons.2.1.le))
  | node first others ih =>
      obtain ⟨hseg, hrest, hcross⟩ := ho.append
      refine .cons (fun m hm => ?_) (ih hrest)
      obtain ⟨b, hb, hstop⟩ := first.mem_last
      obtain ⟨-, ⟨a, ha, hstart⟩, -⟩ := others.within hrest m hm
      rw [← hstop, ← hstart]
      exact hcross b hb a ha

/-- Whatever is no semicolon belongs to a node. -/
theorem covered (h : Lined ls nodes) (ho : InOrder lo (spans ls)) :
    ∀ t s, .token t s ∈ ls →
      t = .mark .semicolon ∨ ∃ m ∈ nodes, m.start ≤ s.start ∧ s.stop ≤ m.stop := by
  induction h with
  | nil => exact fun t s hmem => absurd hmem List.not_mem_nil
  | @semicolon s' ls nodes others ih =>
      intro t s hmem
      have ho' : InOrder lo (s' :: spans ls) := ho
      rcases List.mem_cons.mp hmem with heq | hmem
      · exact .inl (Lexeme.token.inj heq).1
      · exact ih (ho'.of_cons.2.2.mono (Nat.le_trans ho'.of_cons.1 ho'.of_cons.2.1.le)) t s hmem
  | node first others ih =>
      obtain ⟨hseg, hrest, -⟩ := ho.append
      intro t s hmem
      rcases List.mem_append.mp hmem with hmem | hmem
      · exact .inr ⟨_, List.mem_cons_self, first.bounds hseg s (mem_spans_of_token hmem)⟩
      · refine (ih hrest t s hmem).imp_right ?_
        rintro ⟨m, hm, hin⟩
        exact ⟨m, List.mem_cons_of_mem _ hm, hin⟩

/-- Nodes in a line tile the part of the source in which they stand. -/
theorem tiled (h : Lined ls nodes) {source : List Char} {outer : Span} {before behind : List Lexeme}
    (hscan : scan source = before ++ (ls ++ behind))
    (hls : ∀ a ∈ spans ls, outer.start ≤ a.start ∧ a.stop ≤ outer.stop)
    (hbefore : ∀ a ∈ spans before, a.start < outer.start)
    (hbehind : ∀ a ∈ spans behind, outer.stop < a.stop) : Tiled source outer nodes where
  apart := (h.pairwise (order_of_scan hscan).1).imp .inl
  within m hm := by
    obtain ⟨hlt, ⟨a, ha, hstart⟩, b, hb, hstop⟩ := h.within (order_of_scan hscan).1 m hm
    have hlo := (hls a ha).1
    have hhi := (hls b hb).2
    exact ⟨by omega, hlt, by omega⟩
  covered t s hmem hstart hstop := by
    refine h.covered (order_of_scan hscan).1 t s ?_
    rw [hscan, List.mem_append, List.mem_append] at hmem
    rcases hmem with hmem | hmem | hmem
    · have hlt := hbefore s (mem_spans_of_token hmem)
      omega
    · exact hmem
    · have hlt := hbehind s (mem_spans_of_token hmem)
      omega

/-- Nodes in a line between two tokens tile what lies between these. -/
theorem tiled_between (h : Lined ls nodes) {source : List Char} {before behind : List Lexeme}
    {t u : Token} {opening closing : Span}
    (hscan : scan source = before ++ .token t opening :: (ls ++ .token u closing :: behind)) :
    Tiled source ⟨opening.stop, closing.start⟩ nodes := by
  have hsplit : scan source =
      (before ++ [.token t opening]) ++ (ls ++ .token u closing :: behind) := by
    rw [hscan, List.append_assoc]
    rfl
  obtain ⟨-, hbefore, hbehind⟩ := order_of_scan hsplit
  -- Both braces are tokens of the scan, so whatever else the scan has lies outside of them.
  have horder := inOrder_scan source
  rw [hscan] at horder
  obtain ⟨-, htail, hcross⟩ := horder.append
  have htail : InOrder 0 (opening :: spans (ls ++ .token u closing :: behind)) := htail
  have hopening : opening ∈ spans (before ++ [.token t opening]) := by
    rw [spans_append]
    exact List.mem_append_right _ (List.mem_singleton_self _)
  have hlt := htail.of_cons.2.1
  refine h.tiled hsplit (fun a ha => ⟨hbefore opening hopening a ha, ?_⟩) (fun a ha => ?_)
    fun a ha => ?_
  · exact hbehind a ha closing List.mem_cons_self
  · rw [spans_append] at ha
    rcases List.mem_append.mp ha with ha | ha
    · have hle := hcross a ha opening List.mem_cons_self
      have hlt' := (horder.1 a (by rw [spans_append]; exact List.mem_append_left _ ha)).2
      dsimp only
      omega
    · obtain rfl := List.mem_singleton.mp ha
      exact hlt
  · obtain ⟨-, hclosing, -⟩ := htail.of_cons.2.2.append
    have hclosing : InOrder opening.stop (closing :: spans behind) := hclosing
    rcases List.mem_cons.mp ha with rfl | ha
    · exact hclosing.of_cons.2.1
    · have hle := hclosing.of_cons.2.2.1 a ha
      have hlt' := hclosing.of_cons.2.1
      dsimp only
      omega

end Lined

end ProtoSchema
