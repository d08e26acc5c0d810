/-
Places of a text, and where the scanner puts what it reads.

A byte offset is a place of a text if no character straddles it.  The scanner goes from
place to place: it reads one item, and goes on behind it, and every item takes at least
one character.  So each lexeme comes from an item that starts at a place of the text
(`mem_scan`), its span covers the characters of that item and no others, and the spans
of a scan stand one behind the other (`inOrder_scan`).
-/
import ProtoSchema.Token.Scan
import ProtoSchema.Text.Slice

namespace ProtoSchema

/-- An offset of a text at which one character ends and the next one starts. -/
def Text.Boundary (source : List Char) (offset : Nat) : Prop :=
  ∃ before behind, source = before ++ behind ∧ offset = Utf8.size before

/-- The span of a text that stands behind another one. -/
def Span.behind (before text : List Char) : Span :=
  ⟨Utf8.size before, Utf8.size before + Utf8.size text⟩

/-- A stretch of a text: it ends where it starts or later, and splits no character. -/
structure Span.Fits (source : List Char) (s : Span) : Prop where
  ordered : s.start ≤ s.stop
  inside : s.stop ≤ Utf8.size source
  starts : Text.Boundary source s.start
  stops : Text.Boundary source s.stop

namespace Text.Boundary

variable {source : List Char} {offset : Nat}

theorem size (source : List Char) : Boundary source (Utf8.size source) := ⟨source, [], by simp, rfl⟩

theorem le (h : Boundary source offset) : offset ≤ Utf8.size source := by
  obtain ⟨before, behind, rfl, rfl⟩ := h
  rw [Utf8.size_append]
  exact Nat.le_add_right _ _

end Text.Boundary

namespace Span.Fits

variable {source : List Char} {a b : Span}

/-- Two places in order make a span. -/
theorem of_boundaries {m n : Nat} (h : m ≤ n) (hm : Text.Boundary source m)
    (hn : Text.Boundary source n) : Fits source ⟨m, n⟩ := ⟨h, hn.le, hm, hn⟩

theorem point {n : Nat} (h : Text.Boundary source n) : Fits source (.point n) :=
  of_boundaries (Nat.le_refl n) h h

theorem through (ha : Fits source a) (hb : Fits source b) (h : a.start ≤ b.stop) :
    Fits source (a.through b) := of_boundaries h ha.starts hb.stops

/-- A part of a text has its own span. -/
theorem behind {before text : List Char} (rest : List Char)
    (h : source = before ++ (text ++ rest)) :
    Fits source (.behind before text) := by
  refine of_boundaries (Nat.le_add_right _ _) ⟨before, text ++ rest, h, rfl⟩
    ⟨before ++ text, rest, ?_, ?_⟩
  · rw [h, List.append_assoc]
  · rw [Utf8.size_append]

end Span.Fits

theorem Text.slice_behind {source before text : List Char} (rest : List Char)
    (h : source = before ++ (text ++ rest)) :
    Text.slice source (.behind before text) = text := by
  rw [h]
  exact Text.slice_append before text rest

/-! ### Every item takes a character -/

theorem exponentPart?_width_pos {cs : List Char} {e : Int} {width : Nat}
    (h : exponentPart? cs = some (e, width)) : 0 < width := by
  cases cs with
  | nil => cases h
  | cons c cs =>
      simp only [exponentPart?] at h
      split at h
      · split at h
        · cases h
        · cases h
          omega
      · cases h

theorem Numeral.read_width_pos {c : Char} {cs : List Char} (h : c.isDigit ∨ c = '.') :
    0 < (Numeral.read (c :: cs)).2 := by
  unfold Numeral.read
  dsimp only
  split
  · omega
  · rename_i rest hne
    have hd : c.isDigit = true := by
      rcases h with h | rfl
      · exact h
      · exact absurd rfl (hne cs)
    have hw : 0 < ((c :: cs).takeWhile Char.isDigit).length := by
      rw [List.takeWhile_cons, if_pos hd]
      exact Nat.succ_pos _
    split
    · dsimp only
      omega
    · split
      · split
        · dsimp only
          omega
        · exact Nat.one_pos
      · exact hw

theorem Item.readNumeral_width (offset : Nat) (cs : List Char) :
    (readNumeral offset cs).width = (Numeral.read cs).2 := by
  unfold readNumeral
  rcases Numeral.read cs with ⟨_ | _ | _, width⟩ <;> rfl

theorem Item.readSlash_width_pos (offset : Nat) (cs : List Char) :
    0 < (readSlash offset cs).width := by
  unfold readSlash
  split
  · dsimp only
    omega
  · split
    · dsimp only
      omega
    · dsimp only
      omega
  · exact Nat.one_pos

/-- What can stand at the front of a text. -/
theorem Item.read_cases (offset : Nat) (c : Char) (cs : List Char) :
    (isSpace c ∧ read offset c cs = ⟨.blank, 1, []⟩) ∨
    (isWordStart c ∧ read offset c cs =
      ⟨.token (.ident (String.ofList (c :: cs.takeWhile isWordPart))),
        (c :: cs.takeWhile isWordPart).length, []⟩) ∨
    ((c.isDigit ∨ c = '.' ∧ cs.head?.any Char.isDigit) ∧
      read offset c cs = readNumeral offset (c :: cs)) ∨
    ((c = '\'' ∨ c = '"') ∧ read offset c cs =
      ⟨.token (.string (Quoted.read c (offset + 1) cs).bytes),
        1 + (Quoted.read c (offset + 1) cs).width,
        (Quoted.read c (offset + 1) cs).diagnostics offset⟩) ∨
    (c = '/' ∧ read offset c cs = readSlash offset cs) ∨
    (∃ p, Punctuation.ofChar? c = some p ∧ read offset c cs = ⟨.token (.mark p), 1, []⟩) ∨
    (Punctuation.ofChar? c = none ∧ read offset c cs = ⟨.illegal, 1, []⟩) := by
  unfold read
  split
  · rename_i h
    exact .inl ⟨h, rfl⟩
  split
  · rename_i h
    exact .inr (.inl ⟨h, rfl⟩)
  split
  · rename_i h
    simp only [Bool.or_eq_true, Bool.and_eq_true, decide_eq_true_eq] at h
    exact .inr (.inr (.inl ⟨h, rfl⟩))
  split
  · rename_i h
    exact .inr (.inr (.inr (.inl ⟨by simpa using h, rfl⟩)))
  split
  · rename_i h
    exact .inr (.inr (.inr (.inr (.inl ⟨h, rfl⟩))))
  split
  · rename_i p h
    exact .inr (.inr (.inr (.inr (.inr (.inl ⟨p, h, rfl⟩)))))
  · rename_i h
    exact .inr (.inr (.inr (.inr (.inr (.inr ⟨h, rfl⟩)))))

theorem Item.read_width_pos (offset : Nat) (c : Char) (cs : List Char) :
    0 < (read offset c cs).width := by
  rcases read_cases offset c cs with ⟨-, hr⟩ | ⟨-, hr⟩ | ⟨hc, hr⟩ | ⟨-, hr⟩ | ⟨-, hr⟩ | ⟨p, -, hr⟩ |
    ⟨-, hr⟩
  · rw [hr]
    exact Nat.one_pos
  · rw [hr]
    exact Nat.succ_pos _
  · rw [hr, readNumeral_width]
    exact Numeral.read_width_pos (hc.imp_right And.left)
  · rw [hr]
    exact Nat.add_pos_left Nat.one_pos _
  · rw [hr]
    exact readSlash_width_pos offset cs
  · rw [hr]
    exact Nat.one_pos
  · rw [hr]
    exact Nat.one_pos

/-! ### From item to item -/

theorem scanFrom_nil (skip offset : Nat) : scanFrom skip offset [] = [] := by
  cases skip <;> rfl

/-- What belongs to an item that was read already is passed over. -/
theorem scanFrom_skip (skip offset : Nat) (cs : List Char) :
    scanFrom skip offset cs = scanFrom 0 (offset + Utf8.size (cs.take skip)) (cs.drop skip) := by
  induction cs generalizing skip offset with
  | nil => rw [List.drop_nil, scanFrom_nil, scanFrom_nil]
  | cons c cs ih =>
      cases skip with
      | zero => rfl
      | succ skip =>
          rw [scanFrom, ih, List.take_succ_cons, List.drop_succ_cons, Utf8.size_cons, Nat.add_assoc]

namespace Item

/-- The characters that an item takes from the front of a text. -/
def taken (item : Item) (c : Char) (cs : List Char) : List Char := (c :: cs).take item.width

/-- What is left behind an item. -/
def left (item : Item) (c : Char) (cs : List Char) : List Char := (c :: cs).drop item.width

theorem taken_append_left (item : Item) (c : Char) (cs : List Char) :
    item.taken c cs ++ item.left c cs = c :: cs := List.take_append_drop _ _

theorem left_length_lt (offset : Nat) (c : Char) (cs : List Char) :
    ((read offset c cs).left c cs).length < (c :: cs).length := by
  have h := read_width_pos offset c cs
  rw [left, List.length_drop, List.length_cons]
  omega

theorem taken_ne_nil (offset : Nat) (c : Char) (cs : List Char) :
    (read offset c cs).taken c cs ≠ [] := by
  intro h
  have hl := left_length_lt offset c cs
  have hs := congrArg List.length (taken_append_left (read offset c cs) c cs)
  rw [List.length_append, h, List.length_nil] at hs
  omega

end Item

theorem Utf8.size_pos {cs : List Char} (h : cs ≠ []) : 0 < size cs := by
  cases cs with
  | nil => exact absurd rfl h
  | cons c cs => exact Nat.add_pos_left c.utf8Size_pos _

/-- The scan of a text is what its first item contributes, and the scan of what is left. -/
theorem scanFrom_cons (offset : Nat) (c : Char) (cs : List Char) :
    scanFrom 0 offset (c :: cs) =
      (Item.read offset c cs).lexemes offset c cs ++
        scanFrom 0 (offset + Utf8.size ((Item.read offset c cs).taken c cs))
          ((Item.read offset c cs).left c cs) := by
  have hw := Item.read_width_pos offset c cs
  obtain ⟨n, hn⟩ : ∃ n, (Item.read offset c cs).width = n + 1 := ⟨_, (Nat.succ_pred (by omega)).symm⟩
  simp only [scanFrom]
  rw [scanFrom_skip, Item.taken, Item.left, hn, List.take_succ_cons, List.drop_succ_cons,
    Utf8.size_cons, Nat.add_sub_cancel, Nat.add_assoc]

/-- The part of a source behind its byte order mark, and where that part starts. -/
theorem scan_eq (source : List Char) :
    ∃ before behind, source = before ++ behind ∧ scan source = scanFrom 0 (Utf8.size before) behind ∧
      (before = [] ∨ before = ['\uFEFF']) := by
  unfold scan
  split
  · rename_i cs
    exact ⟨['\uFEFF'], cs, rfl, rfl, .inr rfl⟩
  · exact ⟨[], source, rfl, rfl, .inl rfl⟩

/-- To go through a text item by item: from each item to what is left behind it. -/
@[elab_as_elim]
theorem item_induction {motive : List Char → List Char → Prop}
    (nil : ∀ before, motive before [])
    (item : ∀ before c cs,
      motive (before ++ (Item.read (Utf8.size before) c cs).taken c cs)
        ((Item.read (Utf8.size before) c cs).left c cs) → motive before (c :: cs))
    (before behind : List Char) : motive before behind := by
  induction h : behind.length using Nat.strongRecOn generalizing before behind with
  | ind n ih =>
      cases behind with
      | nil => exact nil before
      | cons c cs =>
          have hl := Item.left_length_lt (Utf8.size before) c cs
          exact item before c cs (ih _ (h ▸ hl) _ _ rfl)

theorem mem_scanFrom {lexeme : Lexeme} (before behind : List Char)
    (h : lexeme ∈ scanFrom 0 (Utf8.size before) behind) :
    ∃ as c cs, before ++ behind = as ++ c :: cs ∧
      lexeme ∈ (Item.read (Utf8.size as) c cs).lexemes (Utf8.size as) c cs := by
  induction before, behind using item_induction with
  | nil before =>
      rw [scanFrom_nil] at h
      cases h
  | item before c cs ih =>
      rw [scanFrom_cons, List.mem_append, ← Utf8.size_append] at h
      rcases h with h | h
      · exact ⟨before, c, cs, rfl, h⟩
      · obtain ⟨as, d, ds, hs, hd⟩ := ih h
        rw [List.append_assoc, Item.taken_append_left] at hs
        exact ⟨as, d, ds, hs, hd⟩

/-- Every lexeme comes from an item that starts at a place of the source. -/
theorem mem_scan {source : List Char} {lexeme : Lexeme} (h : lexeme ∈ scan source) :
    ∃ before c cs, source = before ++ c :: cs ∧
      lexeme ∈ (Item.read (Utf8.size before) c cs).lexemes (Utf8.size before) c cs := by
  obtain ⟨before, behind, rfl, hs, -⟩ := scan_eq source
  rw [hs] at h
  exact mem_scanFrom before behind h

/-! ### The spans of a scan -/

/-- Where a lexeme stands, unless it is a remark. -/
def Lexeme.span? : Lexeme → Option Span
  | token _ span => some span
  | illegal _ span => some span
  | note _ => none

/-- Where the tokens and the illegal characters stand. -/
def spans (lexemes : List Lexeme) : List Span := lexemes.filterMap Lexeme.span?

@[simp] theorem spans_nil : spans [] = [] := rfl

theorem spans_append (as bs : List Lexeme) : spans (as ++ bs) = spans as ++ spans bs :=
  List.filterMap_append

theorem mem_spans {lexemes : List Lexeme} {s : Span} :
    s ∈ spans lexemes ↔ ∃ l ∈ lexemes, l.span? = some s := List.mem_filterMap

/-- The span of an item is the span of the characters it takes. -/
theorem Item.span?_lexemes {item : Item} {before : List Char} {c : Char} {cs : List Char}
    {lexeme : Lexeme} {s : Span} (h : lexeme ∈ item.lexemes (Utf8.size before) c cs)
    (hs : lexeme.span? = some s) : s = .behind before (item.taken c cs) := by
  rcases List.mem_append.mp h with h | h
  · obtain ⟨d, -, rfl⟩ := List.mem_map.mp h
    cases hs
  · split at h
    · obtain rfl := List.mem_singleton.mp h
      exact (Option.some.inj hs).symm
    · obtain rfl := List.mem_singleton.mp h
      exact (Option.some.inj hs).symm
    · cases h

theorem Item.mem_lexemes {item : Item} {offset : Nat} {c : Char} {cs : List Char}
    {lexeme : Lexeme} (h : lexeme ∈ item.lexemes offset c cs) :
    (∃ d ∈ item.notes, lexeme = .note d) ∨
      (∃ t s, item.reading = .token t ∧ lexeme = .token t s) ∨
      (∃ s, item.reading = .illegal ∧ lexeme = .illegal c s) := by
  rcases List.mem_append.mp h with h | h
  · obtain ⟨d, hd, rfl⟩ := List.mem_map.mp h
    exact .inl ⟨d, hd, rfl⟩
  · split at h
    · rename_i t ht
      exact .inr (.inl ⟨t, _, ht, List.mem_singleton.mp h⟩)
    · rename_i ht
      exact .inr (.inr ⟨_, ht, List.mem_singleton.mp h⟩)
    · cases h

/-- An item contributes its span once, or not at all if it is blank. -/
theorem Item.spans_lexemes (item : Item) (before : List Char) (c : Char) (cs : List Char) :
    spans (item.lexemes (Utf8.size before) c cs) =
      if item.reading = .blank then [] else [.behind before (item.taken c cs)] := by
  have hn : spans (item.notes.map Lexeme.note) = [] := by
    rw [spans, List.filterMap_eq_nil_iff]
    intro l hl
    obtain ⟨d, -, rfl⟩ := List.mem_map.mp hl
    rfl
  rw [lexemes, spans_append, hn, List.nil_append]
  cases item.reading <;> rfl

/-- The spans of a scan are those of characters that stand in the source. -/
theorem behind_of_mem_scan {source : List Char} {s : Span} (h : s ∈ spans (scan source)) :
    ∃ before text rest, text ≠ [] ∧ source = before ++ (text ++ rest) ∧ s = .behind before text := by
  obtain ⟨l, hl, hs⟩ := mem_spans.mp h
  obtain ⟨before, c, cs, rfl, hi⟩ := mem_scan hl
  exact ⟨before, _, (Item.read (Utf8.size before) c cs).left c cs, Item.taken_ne_nil _ c cs,
    by rw [Item.taken_append_left], Item.span?_lexemes hi hs⟩

theorem fits_of_mem_scan {source : List Char} {s : Span} (h : s ∈ spans (scan source)) :
    s.Fits source := by
  obtain ⟨before, text, rest, -, hs, rfl⟩ := behind_of_mem_scan h
  exact .behind rest hs

theorem start_lt_stop_of_mem_scan {source : List Char} {s : Span} (h : s ∈ spans (scan source)) :
    s.start < s.stop := by
  obtain ⟨before, text, rest, ht, -, rfl⟩ := behind_of_mem_scan h
  exact Nat.lt_add_of_pos_right (Utf8.size_pos ht)

/-! ### Order

Spans in a row: each one ends before the next one starts, and none starts before a
given offset.
-/

/-- Spans one behind the other, from an offset on. -/
def InOrder (offset : Nat) (ss : List Span) : Prop :=
  (∀ s ∈ ss, offset ≤ s.start ∧ s.start < s.stop) ∧ ss.Pairwise (fun a b => a.stop ≤ b.start)

namespace InOrder

variable {m n : Nat} {s : Span} {ss : List Span}

theorem nil (m : Nat) : InOrder m [] := ⟨fun _ h => (List.not_mem_nil h).elim, .nil⟩

theorem mono (h : m ≤ n) (ho : InOrder n ss) : InOrder m ss :=
  ⟨fun s hs => ⟨Nat.le_trans h (ho.1 s hs).1, (ho.1 s hs).2⟩, ho.2⟩

theorem cons (hm : m ≤ s.start) (hs : s.start < s.stop) (ho : InOrder s.stop ss) :
    InOrder m (s :: ss) := by
  refine ⟨fun r hr => ?_, .cons (fun r hr => (ho.1 r hr).1) ho.2⟩
  rcases List.mem_cons.mp hr with rfl | hr
  · exact ⟨hm, hs⟩
  · have hr := ho.1 r hr
    exact ⟨by omega, hr.2⟩

theorem of_cons (ho : InOrder m (s :: ss)) :
    m ≤ s.start ∧ s.start < s.stop ∧ InOrder s.stop ss := by
  obtain ⟨hb, hp⟩ := ho
  rw [List.pairwise_cons] at hp
  exact ⟨(hb s (.head _)).1, (hb s (.head _)).2,
    fun r hr => ⟨hp.1 r hr, (hb r (.tail _ hr)).2⟩, hp.2⟩

end InOrder

theorem inOrder_scanFrom (before behind : List Char) :
    InOrder (Utf8.size before) (spans (scanFrom 0 (Utf8.size before) behind)) := by
  induction before, behind using item_induction with
  | nil before =>
      rw [scanFrom_nil]
      exact .nil _
  | item before c cs ih =>
      rw [Utf8.size_append] at ih
      rw [scanFrom_cons, spans_append, Item.spans_lexemes]
      split
      · exact ih.mono (Nat.le_add_right _ _)
      · exact .cons (Nat.le_refl _)
          (Nat.lt_add_of_pos_right (Utf8.size_pos (Item.taken_ne_nil _ c cs))) ih

/-- What the scanner yields stands in the order of the source, and nothing overlaps. -/
theorem inOrder_scan (source : List Char) : InOrder 0 (spans (scan source)) := by
  obtain ⟨before, behind, -, hs, -⟩ := scan_eq source
  rw [hs]
  exact (inOrder_scanFrom before behind).mono (Nat.zero_le _)

end ProtoSchema
