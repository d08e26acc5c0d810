/-
Lines and columns are right.

A line ends with a carriage return and the line feed behind it, or with one of the two by itself
(`LineEnd`).  The line of a place is told by how many line ends lie wholly before it, and its column
by how far it is from the last of them.

The search for a place goes through the source once.  It counts lines and columns up to the start of
the span and then only looks for its end, so that it stops at different bytes for different ends.
What it has counted depends on the bytes before the start alone: at each offset the line ends so far
give its line, and where the last of them ends gives its column (`Counts`).  One byte, or a carriage
return with its line feed, keeps this.  The bytes from the start on change nothing, so it does not
matter where the search stops, as long as it does not stop before the start; and it cannot, because
not even an empty span ends more than one byte before that.

A start between a carriage return and its line feed is left out.  The two are taken together, so they
are no line end before it, and yet the carriage return is not counted as a column.
-/
import ProtoSchema.Schema

namespace ProtoSchema

/-! ### Line ends -/

/-- A carriage return with the line feed behind it, or one of the two by itself. -/
inductive LineEnd (source : List UInt8) : Span → Prop
  | pair {i : Nat} (cr : source[i]? = some 13) (lf : source[i + 1]? = some 10) :
      LineEnd source ⟨i, i + 2⟩
  | carriageReturn {i : Nat} (cr : source[i]? = some 13) (alone : source[i + 1]? ≠ some 10) :
      LineEnd source ⟨i, i + 1⟩
  | lineFeed {i : Nat} (lf : source[i]? = some 10)
      (alone : ∀ j, j + 1 = i → source[j]? ≠ some 13) : LineEnd source ⟨i, i + 1⟩

/-- The line ends of a text that starts at an offset, in their order. -/
def lineEnds : (offset : Nat) → List UInt8 → List Span
  | _, [] => []
  | offset, 13 :: 10 :: bs => ⟨offset, offset + 2⟩ :: lineEnds (offset + 2) bs
  | offset, b :: bs =>
    if b = 13 ∨ b = 10 then ⟨offset, offset + 1⟩ :: lineEnds (offset + 1) bs
    else lineEnds (offset + 1) bs

theorem bounds_of_mem_lineEnds {s : Span} {offset : Nat} {bs : List UInt8}
    (h : s ∈ lineEnds offset bs) : offset ≤ s.start ∧ s.start < s.stop := by
  fun_induction lineEnds offset bs with
  | case1 => cases h
  | case2 offset bs ih =>
      rcases List.mem_cons.mp h with rfl | h
      · exact ⟨Nat.le_refl _, Nat.lt_add_of_pos_right (by decide)⟩
      · have := ih h
        omega
  | case3 offset b bs _ _ ih =>
      rcases List.mem_cons.mp h with rfl | h
      · exact ⟨Nat.le_refl _, Nat.lt_succ_self _⟩
      · have := ih h
        omega
  | case4 offset b bs _ _ ih =>
      have := ih h
      omega

theorem pairwise_lineEnds (offset : Nat) (bs : List UInt8) :
    (lineEnds offset bs).Pairwise fun s t => s.stop ≤ t.start := by
  fun_induction lineEnds offset bs with
  | case1 => exact .nil
  | case2 offset bs ih => exact .cons (fun t ht => (bounds_of_mem_lineEnds ht).1) ih
  | case3 offset b bs _ _ ih => exact .cons (fun t ht => (bounds_of_mem_lineEnds ht).1) ih
  | case4 offset b bs _ _ ih => exact ih

/-- No line end lies between an offset and a place before it. -/
theorem filter_lineEnds_of_le {start offset : Nat} (h : start ≤ offset) (bs : List UInt8) :
    (lineEnds offset bs).filter (·.stop ≤ start) = [] := by
  rw [List.filter_eq_nil_iff]
  intro s hs
  have := bounds_of_mem_lineEnds hs
  simp only [decide_eq_true_eq]
  omega

namespace LineEnd

variable {source : List UInt8} {s t : Span}

/-- What stands at a place decides how far a line end goes that starts there. -/
theorem unique (hs : LineEnd source s) (ht : LineEnd source t) (h : s.start = t.start) : s = t := by
  cases hs <;> cases ht <;> cases h <;> first | rfl | simp_all

theorem byte (h : LineEnd source s) :
    source[s.start]? = some 13 ∨ source[s.start]? = some 10 := by
  cases h with
  | pair cr _ => exact .inl cr
  | carriageReturn cr _ => exact .inl cr
  | lineFeed lf _ => exact .inr lf

/-- No line end starts between a carriage return and its line feed. -/
theorem start_ne {i : Nat} (h : LineEnd source s) (cr : source[i]? = some 13)
    (lf : source[i + 1]? = some 10) : s.start ≠ i + 1 := by
  rintro hi
  cases h with
  | pair hcr _ =>
      dsimp only at hi
      rw [hi, lf] at hcr
      cases hcr
  | carriageReturn hcr _ =>
      dsimp only at hi
      rw [hi, lf] at hcr
      cases hcr
  | lineFeed _ alone => exact alone i hi.symm cr

end LineEnd

/-- A line end at an offset is the first one from there on, and the others follow behind it. -/
theorem LineEnd.mem_cons_iff {source : List UInt8} {s t : Span} {rest : List Span}
    (ht : LineEnd source t) (hrest : s ∈ rest ↔ LineEnd source s ∧ t.start + 1 ≤ s.start) :
    s ∈ t :: rest ↔ LineEnd source s ∧ t.start ≤ s.start := by
  rw [List.mem_cons, hrest]
  constructor
  · rintro (rfl | ⟨hs, hle⟩)
    · exact ⟨ht, Nat.le_refl _⟩
    · exact ⟨hs, by omega⟩
  · rintro ⟨hs, hle⟩
    by_cases heq : s.start = t.start
    · exact .inl (hs.unique ht heq)
    · exact .inr ⟨hs, by omega⟩

/-- A text goes on behind some of its bytes as it does. -/
theorem getElem?_behind {source bs : List UInt8} {offset : Nat} (cs : List UInt8)
    (h : ∀ k, source[offset + k]? = (cs ++ bs)[k]?) (k : Nat) :
    source[offset + cs.length + k]? = bs[k]? := by
  rw [Nat.add_assoc, h, List.getElem?_append_right (Nat.le_add_right _ _), Nat.add_sub_cancel_left]

theorem getElem?_ne_lineFeed {b : UInt8} {bs : List UInt8}
    (hnot : ∀ cs : List UInt8, b = 13 → bs = 10 :: cs → False) (hb : b = 13) :
    bs[0]? ≠ some 10 := by
  rw [← List.head?_eq_getElem?]
  intro h
  obtain ⟨cs, rfl⟩ := List.head?_eq_some_iff.mp h
  exact hnot cs hb rfl

/-- The line ends of a source from an offset on, unless that is between two bytes of one. -/
theorem mem_lineEnds {source : List UInt8} {s : Span} {offset : Nat} {bs : List UInt8}
    (hbs : ∀ k, source[offset + k]? = bs[k]?)
    (hsplit : ∀ i, i + 1 = offset → source[i]? = some 13 → source[offset]? ≠ some 10) :
    s ∈ lineEnds offset bs ↔ LineEnd source s ∧ offset ≤ s.start := by
  -- On the walk over the bytes, which takes a carriage return and a line feed in one step.
  fun_induction lineEnds offset bs with
  | case1 offset =>
      refine iff_of_false List.not_mem_nil ?_
      rintro ⟨hs, hle⟩
      have hnone := hbs (s.start - offset)
      rw [Nat.add_sub_cancel' hle] at hnone
      rcases hs.byte with h | h <;> simp [hnone] at h
  | case2 offset bs ih =>
      have hcr : source[offset]? = some 13 := hbs 0
      have hlf : source[offset + 1]? = some 10 := hbs 1
      have hrest := ih (getElem?_behind [13, 10] hbs) fun i hi => by
        obtain rfl : i = offset + 1 := by omega
        simp [hlf]
      refine LineEnd.mem_cons_iff (.pair hcr hlf) (hrest.trans (and_congr_right fun hs => ?_))
      have := hs.start_ne hcr hlf
      dsimp only
      omega
  | case3 offset b bs hnot hb ih =>
      have hbyte : source[offset]? = some b := hbs 0
      have hbehind : source[offset + 1]? = bs[0]? := hbs 1
      have hend : LineEnd source ⟨offset, offset + 1⟩ := by
        rcases hb with rfl | rfl
        · exact .carriageReturn hbyte (hbehind ▸ getElem?_ne_lineFeed hnot rfl)
        · exact .lineFeed hbyte fun j hj hcr => hsplit j hj hcr hbyte
      refine hend.mem_cons_iff (ih (getElem?_behind [b] hbs) fun i hi hcr => ?_)
      obtain rfl : i = offset := by omega
      rw [hbyte] at hcr
      rw [hbehind]
      exact getElem?_ne_lineFeed hnot (Option.some.inj hcr)
  | case4 offset b bs hnot hb ih =>
      have hbyte : source[offset]? = some b := hbs 0
      refine (ih (getElem?_behind [b] hbs) fun i hi hcr => ?_).trans (and_congr_right fun hs => ?_)
      · obtain rfl : i = offset := by omega
        rw [hbyte] at hcr
        exact absurd (.inl (Option.some.inj hcr)) hb
      · have hne : s.start ≠ offset := by
          intro heq
          have hline := hs.byte
          rw [heq, hbyte, Option.some.injEq, Option.some.injEq] at hline
          exact hb hline
        omega

/-- The line ends that lie wholly before an offset of a source, in their order. -/
structure EndsBefore (source : List UInt8) (start : Nat) (ends : List Span) : Prop where
  mem_iff : ∀ s, s ∈ ends ↔ LineEnd source s ∧ s.stop ≤ start
  inOrder : ends.Pairwise fun s t => s.stop ≤ t.start

theorem endsBefore_lineEnds (source : List UInt8) (start : Nat) :
    EndsBefore source start ((lineEnds 0 source).filter (·.stop ≤ start)) where
  mem_iff s := by
    have hall : s ∈ lineEnds 0 source ↔ LineEnd source s ∧ 0 ≤ s.start :=
      mem_lineEnds (fun k => by rw [Nat.zero_add]) nofun
    rw [List.mem_filter, hall, decide_eq_true_eq, and_iff_left (Nat.zero_le _)]
  inOrder := (pairwise_lineEnds 0 source).filter _

/-! ### The search -/

/-- Where the line starts that follows some line ends, given where it starts if there are none. -/
def lineStart (first : Nat) (ends : List Span) : Nat := (ends.getLast?.map Span.stop).getD first

theorem lineStart_cons (first : Nat) (s : Span) (ends : List Span) :
    lineStart first (s :: ends) = lineStart s.stop ends := by
  unfold lineStart
  rw [List.getLast?_cons]
  cases ends.getLast? <;> rfl

namespace Position

/-- The search finds a place unless it lies more than one byte behind the end. -/
theorem locate_eq_none_iff {start last : Nat} (offset line column : Nat) (bs : List UInt8) :
    locate start last offset line column bs = none ↔ offset + bs.length < last := by
  fun_induction locate start last offset line column bs with
  | case1 _ _ _ h => exact iff_of_false nofun (Nat.not_lt_of_le h)
  | case2 _ _ _ h => exact iff_of_true rfl (Nat.lt_of_not_le h)
  | case3 _ _ _ _ _ _ _ h =>
      refine iff_of_false nofun ?_
      simp only [List.length_cons]
      omega
  | case4 _ _ _ _ _ _ _ h ih =>
      rw [ih]
      simp only [List.length_cons]
      omega
  | case5 _ _ _ _ _ _ _ _ _ h =>
      refine iff_of_false nofun ?_
      simp only [List.length_cons]
      omega
  | case6 _ _ _ _ _ _ _ _ _ h ih =>
      rw [ih]
      simp only [List.length_cons]
      omega

/-- At an offset the columns are counted from where the line starts, but not behind the place. -/
structure Counts (start offset first column : Nat) : Prop where
  inLine : first ≤ offset ∧ first ≤ start
  column : column = min offset start - first

/-- The position of a place, if so many lines end before an offset and the next one starts there. -/
def onwards (start offset line first : Nat) (bs : List UInt8) : Position :=
  let ends := (lineEnds offset bs).filter (·.stop ≤ start)
  ⟨line + ends.length + 1, start - lineStart first ends + 1⟩

variable {start offset line first column line' column' : Nat} {bs : List UInt8}

theorem onwards_of_le (h : start ≤ offset) (hc : Counts start offset first column) :
    onwards start offset line first bs = ⟨line + 1, column + 1⟩ := by
  have hmin := hc.column
  rw [Nat.min_eq_right h] at hmin
  unfold onwards
  rw [filter_lineEnds_of_le h, hmin]
  rfl

/-- A carriage return with its line feed, unless the place is between them. -/
theorem onwards_pair (hc : Counts start offset first column) (hne : start ≠ offset + 1)
    (h : (if offset + 1 < start then (line + 1, 0) else (line, column)) = (line', column')) :
    ∃ first', Counts start (offset + 2) first' column' ∧
      onwards start offset line first (13 :: 10 :: bs) =
        onwards start (offset + 2) line' first' bs := by
  obtain ⟨⟨hfirst, hplace⟩, hcolumn⟩ := hc
  split at h
  · obtain ⟨rfl, rfl⟩ := Prod.mk.inj h
    refine ⟨offset + 2, ⟨⟨Nat.le_refl _, by omega⟩, by omega⟩, ?_⟩
    unfold onwards
    rw [lineEnds, List.filter_cons_of_pos (by simp; omega)]
    simp only [List.length_cons, lineStart_cons]
    congr 2
    omega
  · obtain ⟨rfl, rfl⟩ := Prod.mk.inj h
    refine ⟨first, ⟨⟨by omega, hplace⟩, by omega⟩, ?_⟩
    unfold onwards
    rw [lineEnds, List.filter_cons_of_neg (by simp; omega)]

/-- Any other byte. -/
theorem onwards_byte {b : UInt8} (hc : Counts start offset first column)
    (hnot : ∀ cs : List UInt8, b = 13 → bs = 10 :: cs → False)
    (h : (if offset < start then if b = 13 ∨ b = 10 then (line + 1, 0) else (line, column + 1)
      else (line, column)) = (line', column')) :
    ∃ first', Counts start (offset + 1) first' column' ∧
      onwards start offset line first (b :: bs) = onwards start (offset + 1) line' first' bs := by
  obtain ⟨⟨hfirst, hplace⟩, hcolumn⟩ := hc
  have hends : lineEnds offset (b :: bs) =
      if b = 13 ∨ b = 10 then ⟨offset, offset + 1⟩ :: lineEnds (offset + 1) bs
      else lineEnds (offset + 1) bs := lineEnds.eq_3 offset b bs hnot
  unfold onwards
  rw [hends]
  by_cases hb : b = 13 ∨ b = 10
  · rw [if_pos hb] at h ⊢
    split at h
    · obtain ⟨rfl, rfl⟩ := Prod.mk.inj h
      refine ⟨offset + 1, ⟨⟨Nat.le_refl _, by omega⟩, by omega⟩, ?_⟩
      rw [List.filter_cons_of_pos (by simp; omega)]
      simp only [List.length_cons, lineStart_cons]
      congr 2
      omega
    · obtain ⟨rfl, rfl⟩ := Prod.mk.inj h
      refine ⟨first, ⟨⟨by omega, hplace⟩, by omega⟩, ?_⟩
      rw [List.filter_cons_of_neg (by simp; omega)]
  · rw [if_neg hb] at h ⊢
    split at h
    · obtain ⟨rfl, rfl⟩ := Prod.mk.inj h
      exact ⟨first, ⟨⟨by omega, hplace⟩, by omega⟩, rfl⟩
    · obtain ⟨rfl, rfl⟩ := Prod.mk.inj h
      exact ⟨first, ⟨⟨by omega, hplace⟩, by omega⟩, rfl⟩

/-- The search finds the position of a place that is not within a line end. -/
theorem locate_eq {last : Nat} (hlast : start ≤ last + 1) (hc : Counts start offset first column)
    (hend : last ≤ offset + bs.length) (hplace : start ≤ offset + bs.length)
    (hsplit : ∀ i, bs[i]? = some 13 → bs[i + 1]? = some 10 → start ≠ offset + (i + 1)) :
    locate start last offset line column bs = some (onwards start offset line first bs) := by
  fun_induction locate start last offset line column bs generalizing first with
  | case1 offset line column h =>
      have hbehind : start ≤ offset := hplace
      rw [onwards_of_le hbehind hc]
  | case2 offset line column h => exact absurd hend h
  | case3 offset line column bs line' column' heq h =>
      obtain ⟨first', hc', hon⟩ := onwards_pair hc (hsplit 0 rfl rfl) heq
      rw [hon, onwards_of_le (by omega) hc']
  | case4 offset line column bs line' column' heq h ih =>
      obtain ⟨first', hc', hon⟩ := onwards_pair hc (hsplit 0 rfl rfl) heq
      simp only [List.length_cons] at hend hplace
      rw [hon]
      refine ih hc' (by omega) (by omega) fun i hcr hlf => ?_
      have := hsplit (i + 2) hcr hlf
      omega
  | case5 offset line column b bs hnot line' column' heq h =>
      obtain ⟨first', hc', hon⟩ := onwards_byte hc hnot heq
      rw [hon, onwards_of_le (by omega) hc']
  | case6 offset line column b bs hnot line' column' heq h ih =>
      obtain ⟨first', hc', hon⟩ := onwards_byte hc hnot heq
      simp only [List.length_cons] at hend hplace
      rw [hon]
      refine ih hc' (by omega) (by omega) fun i hcr hlf => ?_
      have := hsplit (i + 1) hcr hlf
      omega

end Position

/-- An offset between a carriage return and its line feed. -/
def BetweenPair (source : List UInt8) (n : Nat) : Prop :=
  ∃ i, source[i]? = some 13 ∧ source[i + 1]? = some 10 ∧ n = i + 1

/--
**Lines and columns are right.**  A span has no position exactly if it ends more than one byte
behind the end of the source.  A place that is not between a carriage return and its line feed is
on the line that comes after all line ends before it, in the column that comes after all bytes
between the last of them, or the start of the source, and the place; no matter where in the source a
span ends that starts there.
-/
theorem position_exact (r : Report) (start : Nat) :
    (∀ stop, start ≤ stop → (r.position? ⟨start, stop⟩ = none ↔ r.source.length + 1 < stop)) ∧
    (¬BetweenPair r.source start → ∃ ends, EndsBefore r.source start ends ∧
      ∀ stop, start ≤ stop → stop ≤ r.source.length →
        r.position? ⟨start, stop⟩ = some ⟨1 + ends.length, 1 + (start - lineStart 0 ends)⟩) := by
  unfold Report.position? Position.ofSpan?
  refine ⟨fun stop hle => ?_, fun hsplit => ⟨_, endsBefore_lineEnds r.source start, ?_⟩⟩
  · rw [Position.locate_eq_none_iff]
    dsimp only
    omega
  · intro stop hle hin
    have hcounts : Position.Counts start 0 0 0 := ⟨⟨Nat.le_refl 0, Nat.zero_le _⟩, by omega⟩
    have hpairs : ∀ i, r.source[i]? = some 13 → r.source[i + 1]? = some 10 → start ≠ 0 + (i + 1) :=
      fun i hcr hlf heq => hsplit ⟨i, hcr, hlf, heq.trans (Nat.zero_add _)⟩
    dsimp only
    rw [Position.locate_eq (by omega) hcounts (by omega) (by omega) hpairs, Position.onwards]
    simp only [Option.some.injEq, Position.mk.injEq]
    omega

end ProtoSchema
