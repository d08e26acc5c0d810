/-
The scanner covers a source text exactly once.

What it yields stands in the order of the text and nothing overlaps; this is what a
parser needs to know.  The other half is that nothing is lost: a byte outside of all
tokens and illegal characters belongs to something that the language lets stand between
them.  `Gap` says what that is, in terms of the text alone.  The scanner moves on by
hand at the byte order mark, behind literals and behind comments, and each of these
moves could miss a byte or read one twice.  So the statement counts: together with the
gaps, exactly one span covers each byte (`scan_covers`).

The induction goes item by item.  One item covers the bytes from where it starts to
where the next one starts, once, and is a gap if it is blank.
-/
import ProtoSchema.Proofs.Scanning.Places
import Mathlib.Data.List.TakeWhile

namespace ProtoSchema

/-- The byte at offset `n` is one of a span's. -/
def Span.Covers (s : Span) (n : Nat) : Prop := s.start ≤ n ∧ n < s.stop

instance (s : Span) (n : Nat) : Decidable (s.Covers n) := by
  unfold Span.Covers
  exact inferInstance

/-- What may stand between the tokens of a source whose scan is `lexemes`. -/
inductive Gap (source : List Char) (lexemes : List Lexeme) : Span → Prop where
  /-- A byte order mark at the front. -/
  | byteOrderMark {rest : List Char} (text : source = '\uFEFF' :: rest) :
      Gap source lexemes ⟨0, 3⟩
  /-- White space. -/
  | space {before run rest : List Char} (text : source = before ++ (run ++ rest))
      (blank : ∀ c ∈ run, isSpace c) : Gap source lexemes (.behind before run)
  /-- A comment up to its line feed, or up to the end if no line feed follows. -/
  | lineComment {before line rest : List Char}
      (text : source = before ++ ('/' :: '/' :: line ++ rest)) (within : '\n' ∉ line)
      (ends : rest = [] ∨ rest.head? = some '\n') :
      Gap source lexemes (.behind before ('/' :: '/' :: line))
  /-- A comment up to its end, which is the first one behind its start. -/
  | blockComment {before body rest : List Char}
      (text : source = before ++ ('/' :: '*' :: body ++ ['*', '/'] ++ rest))
      (first : ¬ ['*', '/'] <:+: body ++ ['*']) :
      Gap source lexemes (.behind before ('/' :: '*' :: body ++ ['*', '/']))
  /-- A comment without an end takes all the rest, and is reported where it starts. -/
  | openComment {before body : List Char} (text : source = before ++ '/' :: '*' :: body)
      (never : ¬ ['*', '/'] <:+: body)
      (reported : .note (.unterminatedBlockComment (.behind before ['/', '*'])) ∈ lexemes) :
      Gap source lexemes (.behind before ('/' :: '*' :: body))

/-! ### Comments -/

theorem commentLength?_eq_some {cs : List Char} {n : Nat} (h : commentLength? cs = some n) :
    ∃ body rest, cs = body ++ ['*', '/'] ++ rest ∧ n = body.length + 2 ∧
      ¬ ['*', '/'] <:+: body ++ ['*'] := by
  induction cs using commentLength?.induct generalizing n with
  | case1 => cases h
  | case2 rest =>
      cases h
      exact ⟨[], rest, rfl, rfl, by decide⟩
  | case3 c cs hne ih =>
      rw [commentLength?.eq_3 c cs hne] at h
      obtain ⟨m, hm, rfl⟩ := Option.map_eq_some_iff.mp h
      obtain ⟨body, rest, rfl, rfl, hb⟩ := ih hm
      refine ⟨c :: body, rest, rfl, rfl, fun hi => ?_⟩
      rw [List.cons_append, List.infix_cons_iff] at hi
      rcases hi with hp | hi
      · -- An end at the front would have been the first one.
        rw [List.cons_prefix_cons] at hp
        obtain ⟨rfl, hp⟩ := hp
        cases body with
        | nil => exact absurd hp (by decide)
        | cons d body =>
            rw [List.cons_append, List.cons_prefix_cons] at hp
            obtain ⟨rfl, -⟩ := hp
            exact hne _ rfl rfl
      · exact hb hi

theorem commentLength?_eq_none {cs : List Char} (h : commentLength? cs = none) :
    ¬ ['*', '/'] <:+: cs := by
  induction cs using commentLength?.induct with
  | case1 => decide
  | case2 rest => cases h
  | case3 c cs hne ih =>
      rw [commentLength?.eq_3 c cs hne] at h
      intro hi
      rw [List.infix_cons_iff] at hi
      rcases hi with hp | hi
      · rw [List.cons_prefix_cons] at hp
        obtain ⟨rfl, hp⟩ := hp
        cases cs with
        | nil => exact absurd hp (by decide)
        | cons d cs =>
            rw [List.cons_prefix_cons] at hp
            obtain ⟨rfl, -⟩ := hp
            exact hne _ rfl rfl
      · exact ih (Option.map_eq_none_iff.mp h) hi

namespace Item

/-- A numeral is a token. -/
theorem readNumeral_reading (offset : Nat) (cs : List Char) :
    ∃ t, (readNumeral offset cs).reading = .token t := by
  unfold readNumeral
  rcases Numeral.read cs with ⟨_ | _ | _, width⟩ <;> exact ⟨_, rfl⟩

/-- Only white space and what a slash starts is blank. -/
theorem reading_eq_blank {offset : Nat} {c : Char} {cs : List Char}
    (h : (read offset c cs).reading = .blank) :
    (isSpace c ∧ read offset c cs = ⟨.blank, 1, []⟩) ∨
      (c = '/' ∧ read offset c cs = readSlash offset cs) := by
  rcases read_cases offset c cs with hr | ⟨-, hr⟩ | ⟨-, hr⟩ | ⟨-, hr⟩ | hr | ⟨p, -, hr⟩ | ⟨-, hr⟩
  · exact .inl hr
  · rw [hr] at h
    cases h
  · obtain ⟨t, ht⟩ := readNumeral_reading offset (c :: cs)
    rw [hr, ht] at h
    cases h
  · rw [hr] at h
    cases h
  · exact .inr hr
  · rw [hr] at h
    cases h
  · rw [hr] at h
    cases h

/-- A character that starts no token is an item by itself. -/
theorem width_of_illegal {offset : Nat} {c : Char} {cs : List Char}
    (h : (read offset c cs).reading = .illegal) : (read offset c cs).width = 1 := by
  rcases read_cases offset c cs with ⟨-, hr⟩ | ⟨-, hr⟩ | ⟨-, hr⟩ | ⟨-, hr⟩ | ⟨-, hr⟩ | ⟨p, -, hr⟩ |
    ⟨-, hr⟩
  · rw [hr]
  · rw [hr] at h
    cases h
  · obtain ⟨t, ht⟩ := readNumeral_reading offset (c :: cs)
    rw [hr, ht] at h
    cases h
  · rw [hr] at h
    cases h
  · rw [hr] at h ⊢
    unfold readSlash at h ⊢
    split at h
    · cases h
    · split at h <;> cases h
    · rfl
  · rw [hr]
  · rw [hr]

/-- An item that is as wide as a text takes that text. -/
theorem taken_eq {item : Item} (text rest : List Char) {c : Char} {cs : List Char}
    (h : c :: cs = text ++ rest) (hw : item.width = text.length) : item.taken c cs = text := by
  rw [taken, h, List.take_left' hw.symm]

theorem gap_lineComment {source before cs : List Char} {lexemes : List Lexeme}
    (hs : source = before ++ '/' :: '/' :: cs) :
    Gap source lexemes (.behind before ('/' :: '/' :: cs.takeWhile (· ≠ '\n'))) := by
  have htext : source = before ++
      ('/' :: '/' :: cs.takeWhile (· ≠ '\n') ++ cs.dropWhile (· ≠ '\n')) := by
    rw [hs, List.cons_append, List.cons_append, List.takeWhile_append_dropWhile]
  refine .lineComment htext ?_ ?_
  · intro h
    simpa using List.mem_takeWhile_imp h
  · cases h : cs.dropWhile (· ≠ '\n') with
    | nil => exact .inl rfl
    | cons d ds =>
        have hd := List.head?_dropWhile_not (· ≠ '\n') cs
        rw [h] at hd
        exact .inr (by simpa using hd)

/-- What a slash starts is a comment, if it is blank. -/
theorem gap_of_readSlash {source before cs : List Char} {lexemes : List Lexeme}
    (hs : source = before ++ '/' :: cs)
    (hn : ∀ d ∈ (readSlash (Utf8.size before) cs).notes, .note d ∈ lexemes)
    (h : (readSlash (Utf8.size before) cs).reading = .blank) :
    Gap source lexemes (.behind before ((readSlash (Utf8.size before) cs).taken '/' cs)) := by
  unfold readSlash at h
  split at h
  · rename_i cs
    rw [taken_eq ('/' :: '/' :: cs.takeWhile (· ≠ '\n')) (cs.dropWhile (· ≠ '\n'))]
    · exact gap_lineComment hs
    · rw [List.cons_append, List.cons_append, List.takeWhile_append_dropWhile]
    · exact Nat.add_comm _ _
  · rename_i cs
    split at h
    · rename_i n hl
      obtain ⟨body, rest, rfl, rfl, hb⟩ := commentLength?_eq_some hl
      have htext : source = before ++ ('/' :: '*' :: body ++ ['*', '/'] ++ rest) := by
        simp [hs]
      rw [taken_eq ('/' :: '*' :: body ++ ['*', '/']) rest]
      · exact .blockComment htext hb
      · simp
      · simp only [readSlash, hl, List.length_append, List.length_cons, List.length_nil]
        omega
    · rename_i hl
      simp only [readSlash, hl, List.mem_singleton, forall_eq] at hn
      rw [taken_eq ('/' :: '*' :: cs) []]
      · exact .openComment hs (commentLength?_eq_none hl) hn
      · rw [List.append_nil]
      · simp only [readSlash, hl, List.length_cons]
        omega
  · cases h

/-- A blank item is a gap. -/
theorem gap_of_read {source before cs : List Char} {c : Char} {lexemes : List Lexeme}
    (hs : source = before ++ c :: cs)
    (hn : ∀ d ∈ (read (Utf8.size before) c cs).notes, .note d ∈ lexemes)
    (h : (read (Utf8.size before) c cs).reading = .blank) :
    Gap source lexemes (.behind before ((read (Utf8.size before) c cs).taken c cs)) := by
  rcases reading_eq_blank h with ⟨hc, hr⟩ | ⟨rfl, hr⟩
  · have ht : taken ⟨.blank, 1, []⟩ c cs = [c] := taken_eq [c] cs rfl rfl
    rw [hr, ht]
    have htext : source = before ++ ([c] ++ cs) := hs
    exact .space htext fun d hd => List.mem_singleton.mp hd ▸ hc
  · rw [hr] at hn h ⊢
    exact gap_of_readSlash hs hn h

end Item

/-! ### Counting -/

/-- The number of spans that cover a byte. -/
def coverage (ss : List Span) (n : Nat) : Nat := ss.countP (·.Covers n)

theorem coverage_cons (s : Span) (ss : List Span) (n : Nat) :
    coverage (s :: ss) n = coverage ss n + if s.Covers n then 1 else 0 := by
  rw [coverage, List.countP_cons]
  simp only [decide_eq_true_eq]
  rfl

theorem coverage_append (as bs : List Span) (n : Nat) :
    coverage (as ++ bs) n = coverage as n + coverage bs n := List.countP_append

/-- A byte of a stretch is one of its first part or one of its second part. -/
theorem covers_append (before as bs : List Char) (n : Nat) :
    (if (Span.behind before (as ++ bs)).Covers n then 1 else 0) =
      (if (Span.behind (before ++ as) bs).Covers n then 1 else 0) +
        if (Span.behind before as).Covers n then 1 else 0 := by
  have h := Utf8.size_append before as
  have h' := Utf8.size_append as bs
  split <;> split <;> split <;> simp only [Span.Covers, Span.behind] at * <;> omega

/-- From any item on, tokens, illegal characters and gaps cover each byte once. -/
theorem coverage_scanFrom {source : List Char} {lexemes : List Lexeme} (before behind : List Char)
    (hs : source = before ++ behind)
    (hl : ∀ l ∈ scanFrom 0 (Utf8.size before) behind, l ∈ lexemes) :
    ∃ gaps, (∀ g ∈ gaps, Gap source lexemes g) ∧
      ∀ n, coverage (spans (scanFrom 0 (Utf8.size before) behind) ++ gaps) n =
        if (Span.behind before behind).Covers n then 1 else 0 := by
  -- On the items: a blank one is a gap, and any other has one lexeme for all of its text.
  induction before, behind using item_induction with
  | nil before =>
      refine ⟨[], fun _ h => (List.not_mem_nil h).elim, fun n => ?_⟩
      rw [scanFrom_nil, spans_nil, if_neg]
      · rfl
      · simp only [Span.Covers, Span.behind, Utf8.size_nil]
        omega
  | item before c cs ih =>
      rw [scanFrom_cons, ← Utf8.size_append] at hl ⊢
      have hj := Item.taken_append_left (Item.read (Utf8.size before) c cs) c cs
      obtain ⟨gaps, hg, hc⟩ := ih (by rw [hs, List.append_assoc, hj])
        fun l h => hl l (List.mem_append_right _ h)
      have hn := fun n => covers_append before ((Item.read (Utf8.size before) c cs).taken c cs)
        ((Item.read (Utf8.size before) c cs).left c cs) n
      simp only [hj, ← hc, coverage_append] at hn
      by_cases hb : (Item.read (Utf8.size before) c cs).reading = .blank
      · refine ⟨.behind before ((Item.read (Utf8.size before) c cs).taken c cs) :: gaps,
          List.forall_mem_cons.mpr ⟨Item.gap_of_read hs (fun d hd => hl _ ?_) hb, hg⟩, fun n => ?_⟩
        · exact List.mem_append_left _ (List.mem_append_left _ (List.mem_map_of_mem hd))
        · rw [hn, spans_append, Item.spans_lexemes, if_pos hb, List.nil_append, coverage_append,
            coverage_cons, Nat.add_assoc]
      · refine ⟨gaps, hg, fun n => ?_⟩
        rw [hn, spans_append, Item.spans_lexemes, if_neg hb, List.append_assoc, List.singleton_append,
          coverage_cons, coverage_append]

/-- Over the whole source, with the byte order mark as one more gap. -/
theorem coverage_scan (source : List Char) :
    ∃ gaps, (∀ g ∈ gaps, Gap source (scan source) g) ∧
      ∀ n, coverage (spans (scan source) ++ gaps) n = if n < Utf8.size source then 1 else 0 := by
  obtain ⟨before, behind, hs, hl, hb⟩ := scan_eq source
  obtain ⟨gaps, hg, hc⟩ := coverage_scanFrom before behind hs fun l h => hl ▸ h
  rw [← hl] at hc
  rcases hb with rfl | rfl
  · refine ⟨gaps, hg, fun n => ?_⟩
    rw [hc, hs]
    simp only [Span.Covers, Span.behind, Utf8.size_nil, Nat.zero_le, true_and, Nat.zero_add,
      List.nil_append]
  · have h3 : Span.behind [] ['\uFEFF'] = ⟨0, 3⟩ := by decide
    refine ⟨.behind [] ['\uFEFF'] :: gaps,
      List.forall_mem_cons.mpr ⟨h3 ▸ .byteOrderMark hs, hg⟩, fun n => ?_⟩
    have hm := covers_append [] ['\uFEFF'] behind n
    rw [List.nil_append, ← hc, ← hs] at hm
    rw [coverage_append, coverage_cons, ← Nat.add_assoc, ← coverage_append, ← hm]
    simp only [Span.Covers, Span.behind, Utf8.size_nil, Nat.zero_le, true_and, Nat.zero_add]

/-- An illegal character stands where the scan says. -/
theorem slice_of_illegal_mem_scan {source : List Char} {c : Char} {s : Span}
    (h : .illegal c s ∈ scan source) : Text.slice source s = [c] := by
  obtain ⟨before, d, ds, rfl, hi⟩ := mem_scan h
  rw [Item.span?_lexemes hi rfl]
  rcases Item.mem_lexemes hi with ⟨d, -, hd⟩ | ⟨t, s, -, ht⟩ | ⟨s, hr, hd⟩
  · cases hd
  · cases ht
  · cases hd
    have ht : (Item.read (Utf8.size before) c ds).taken c ds = [c] :=
      Item.taken_eq [c] ds rfl (Item.width_of_illegal hr)
    rw [ht]
    exact Text.slice_behind ds rfl

/--
The scanner covers a source exactly once.  The tokens and illegal characters that it
yields are stretches of the source that are not empty, split no character, and stand
one behind the other; each illegal one is a single character.  There are gaps, each of
them something that may stand between tokens, such that each byte of the source is
covered by exactly one of all these.
-/
theorem scan_covers (source : List Char) :
    (∀ s ∈ spans (scan source), s.start < s.stop ∧ s.Fits source) ∧
    (spans (scan source)).Pairwise (fun a b => a.start < b.start ∧ a.stop ≤ b.start) ∧
    (∀ c s, .illegal c s ∈ scan source → Text.slice source s = [c]) ∧
    ∃ gaps, (∀ g ∈ gaps, Gap source (scan source) g) ∧
      ∀ n < Utf8.size source, coverage (spans (scan source) ++ gaps) n = 1 := by
  refine ⟨fun s hs => ⟨start_lt_stop_of_mem_scan hs, fits_of_mem_scan hs⟩, ?_,
    fun c s => slice_of_illegal_mem_scan, ?_⟩
  · have ho := inOrder_scan source
    refine ho.2.imp_of_mem fun {a b} ha _ h => ⟨?_, h⟩
    have := (ho.1 a ha).2
    omega
  · obtain ⟨gaps, hg, hc⟩ := coverage_scan source
    refine ⟨gaps, hg, fun n hn => ?_⟩
    rw [hc, if_pos hn]

end ProtoSchema
