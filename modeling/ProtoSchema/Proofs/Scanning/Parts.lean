/-
What a string literal consists of.

The text behind an opening quote is read as parts, from left to right: characters that stand for
themselves, the quote of the other kind, escapes, and what is invalid.  Two things are said of a
part: which characters it has, and what may follow it.  The second one is needed because escapes
have no fixed length: `\x4` is an escape, but not in front of a digit.  So an escape is the
longest one at its place, and a backslash is invalid by itself only if no escape starts there.

What is an escape is said by one rule for each way to write one.  The reader tries these ways one
after the other; that it finds the longest escape is shown by `le_width_of_escape`, and that it
finds escapes only by `readEscape_cases`.
-/
import ProtoSchema.Proofs.Scanning.Places
import Mathlib.Data.List.TakeWhile

namespace ProtoSchema

/-! ### Escapes -/

/-- The letters of the escapes that have one, with the bytes they stand for. -/
def escapeLetters : List (Char × UInt8) :=
  [('a', 7), ('b', 8), ('t', 9), ('n', 10), ('v', 11), ('f', 12), ('r', 13), ('?', 63),
   ('\\', 92), ('\'', 39), ('"', 34)]

/-- The letters of the escapes of code points, with the number of digits behind them. -/
def codePointLetters : List (Char × Nat) := [('u', 4), ('U', 8)]

/-- A complete escape, with the bytes that it stands for, if it has a value. -/
inductive Escape : List Char → Option (List UInt8) → Prop
  | letter {c : Char} {b : UInt8} : (c, b) ∈ escapeLetters → Escape ['\\', c] (some [b])
  | hex {x : Char} {ds : List Char} : x = 'x' ∨ x = 'X' → ds ≠ [] → ds.length ≤ 2 →
      (∀ d ∈ ds, isHexDigit d = true) →
        Escape ('\\' :: x :: ds) (some [UInt8.ofNat (valueOfDigits 16 ds)])
  | octal {ds : List Char} : ds ≠ [] → ds.length ≤ 3 → (∀ d ∈ ds, isOctalDigit d = true) →
      Escape ('\\' :: ds)
        (if valueOfDigits 8 ds < 256 then some [UInt8.ofNat (valueOfDigits 8 ds)] else none)
  | codePoint {u : Char} {n : Nat} {ds : List Char} : (u, n) ∈ codePointLetters →
      ds.length = n → (∀ d ∈ ds, isHexDigit d = true) →
        Escape ('\\' :: u :: ds)
          (if (valueOfDigits 16 ds).isValidChar then
            some (Utf8.encode [Char.ofNat (valueOfDigits 16 ds)]) else none)

/-- No escape at the front of a text is longer than its front part. -/
def IsLongestEscape (front rest : List Char) : Prop :=
  ∀ cs value, Escape cs value → cs <+: front ++ rest → cs.length ≤ front.length

/-! ### Parts -/

/-- Characters that stand for themselves, wherever they stand. -/
def IsOrdinary (c : Char) : Prop :=
  c ≠ '\\' ∧ c ≠ '\'' ∧ c ≠ '"' ∧ c ≠ '\n' ∧ c ≠ '\x00'

instance (c : Char) : Decidable (IsOrdinary c) := by
  unfold IsOrdinary
  exact inferInstance

/-- A part of a literal. -/
inductive LiteralPart where
  | text (run : List Char)
  /-- The quote that is not the literal's own. -/
  | otherQuote (c : Char)
  | escape (cs : List Char) (bytes : List UInt8)
  | nul
  /-- A backslash that starts no escape. -/
  | backslash
  /-- An escape that has no value. -/
  | valueless (cs : List Char)
deriving DecidableEq, Repr

namespace LiteralPart

/-- How a part is written. -/
def chars : LiteralPart → List Char
  | text run => run
  | otherQuote c => [c]
  | escape cs _ | valueless cs => cs
  | nul => ['\x00']
  | backslash => ['\\']

/-- The bytes that a part stands for. -/
def bytes : LiteralPart → List UInt8
  | text run => Utf8.encode run
  | otherQuote c => Utf8.encode [c]
  | escape _ bs => bs
  | nul | backslash | valueless _ => []

/-- Whether a part is invalid, and if it is, whether as an escape. -/
def invalid? : LiteralPart → Option Bool
  | text _ | otherQuote _ | escape _ _ => none
  | nul => some false
  | backslash | valueless _ => some true

/-- A part of a literal stands before the rest of a text. -/
def StandsBefore (quote : Char) (rest : List Char) : LiteralPart → Prop
  | text run => run ≠ [] ∧ (∀ c ∈ run, IsOrdinary c) ∧ ∀ c ∈ rest.head?, ¬IsOrdinary c
  | otherQuote c => (c = '\'' ∨ c = '"') ∧ c ≠ quote
  | escape cs bs => Escape cs (some bs) ∧ IsLongestEscape cs rest
  | nul => True
  | backslash => ∀ cs value, Escape cs value → ¬cs <+: '\\' :: rest
  | valueless cs => Escape cs none ∧ IsLongestEscape cs rest

end LiteralPart

/-! ### The longest escape -/

namespace Escape

variable {cs : List Char} {value : Option (List UInt8)}

/-- An escape is a backslash with something behind it. -/
theorem eq_cons (h : Escape cs value) : ∃ ds, cs = '\\' :: ds ∧ ds ≠ [] := by
  cases h with
  | letter _ => exact ⟨_, rfl, List.cons_ne_nil _ _⟩
  | hex _ _ _ _ => exact ⟨_, rfl, List.cons_ne_nil _ _⟩
  | octal hne _ _ => exact ⟨_, rfl, hne⟩
  | codePoint _ _ _ => exact ⟨_, rfl, List.cons_ne_nil _ _⟩

theorem two_le_length (h : Escape cs value) : 2 ≤ cs.length := by
  obtain ⟨ds, rfl, hne⟩ := h.eq_cons
  have := List.length_pos_iff.mpr hne
  rw [List.length_cons]
  omega

end Escape

/-- Digits in front of a text are among those that are read there. -/
theorem takeWhile_take_append {p : Char → Bool} {ds rest : List Char} {n : Nat}
    (hn : ds.length ≤ n) (hp : ∀ d ∈ ds, p d = true) :
    ((ds ++ rest).take n).takeWhile p = ds ++ (rest.take (n - ds.length)).takeWhile p := by
  rw [List.take_append, List.take_of_length_le hn, List.takeWhile_append_of_pos hp]

theorem ne_x_of_isOctalDigit {c : Char} (h : isOctalDigit c = true) : ¬(c = 'x' ∨ c = 'X') := by
  rintro (rfl | rfl)
  · exact absurd h (by decide)
  · exact absurd h (by decide)

namespace QuotedPart

theorem readCodePoint_snd {n : Nat} {ds : List Char} (rest : List Char) (hn : ds.length = n)
    (hds : ∀ d ∈ ds, isHexDigit d = true) : (readCodePoint n (ds ++ rest)).2 = 2 + n := by
  have htake : (ds ++ rest).take n = ds := List.take_left' hn
  unfold readCodePoint
  rw [htake]
  dsimp only
  rw [if_pos ⟨hn, List.all_eq_true.mpr hds⟩]
  split
  · rfl
  · rfl

/-- What is read at a backslash is at least as long as any escape there. -/
theorem le_width_of_escape {cs rest text : List Char} {value : Option (List UInt8)}
    (h : Escape cs value) (htext : '\\' :: text = cs ++ rest) :
    cs.length ≤ (readEscape text).2 := by
  cases h with
  | @letter c b hmem =>
      obtain rfl : text = c :: rest := List.tail_eq_of_cons_eq htext
      simp only [escapeLetters, List.mem_cons, Prod.mk.injEq, List.not_mem_nil, or_false] at hmem
      rcases hmem with ⟨rfl, -⟩ | ⟨rfl, -⟩ | ⟨rfl, -⟩ | ⟨rfl, -⟩ | ⟨rfl, -⟩ | ⟨rfl, -⟩ | ⟨rfl, -⟩ |
        ⟨rfl, -⟩ | ⟨rfl, -⟩ | ⟨rfl, -⟩ | ⟨rfl, -⟩ <;> exact Nat.le_refl 2
  | @hex x ds hx hne hlen hds =>
      obtain rfl : text = x :: (ds ++ rest) := List.tail_eq_of_cons_eq htext
      rw [readEscape, if_pos hx, takeWhile_take_append hlen hds]
      split
      · rename_i hnil
        exact absurd (List.append_eq_nil_iff.mp hnil).1 hne
      · simp only [List.length_cons, List.length_append]
        omega
  | @octal ds hne hlen hds =>
      obtain rfl : text = ds ++ rest := List.tail_eq_of_cons_eq htext
      cases ds with
      | nil => exact absurd rfl hne
      | cons c ds =>
          have hc : isOctalDigit c = true := hds c List.mem_cons_self
          rw [List.cons_append, readEscape, if_neg (ne_x_of_isOctalDigit hc), if_pos hc,
            ← List.cons_append, takeWhile_take_append hlen hds]
          simp only [List.length_cons, List.length_append]
          omega
  | @codePoint u n ds hu hn hds =>
      obtain rfl : text = u :: (ds ++ rest) := List.tail_eq_of_cons_eq htext
      have hwidth := readCodePoint_snd rest hn hds
      simp only [codePointLetters, List.mem_cons, Prod.mk.injEq, List.not_mem_nil, or_false] at hu
      rcases hu with ⟨rfl, rfl⟩ | ⟨rfl, rfl⟩
      · show _ ≤ (readCodePoint 4 (ds ++ rest)).2
        rw [hwidth, List.length_cons, List.length_cons]
        omega
      · show _ ≤ (readCodePoint 8 (ds ++ rest)).2
        rw [hwidth, List.length_cons, List.length_cons]
        omega

/-! ### Only escapes are read as escapes -/

/-- What is read of an escape with or without a value. -/
def ofValue : Option (List UInt8) → QuotedPart
  | some bs => bytes bs
  | none => invalidEscape

/-- An escape that is read in front of a text. -/
def ReadsEscape (text : List Char) (part : QuotedPart) (width : Nat) : Prop :=
  ∃ cs rest value, Escape cs value ∧ '\\' :: text = cs ++ rest ∧ width = cs.length ∧
    part = ofValue value

theorem readCodePoint_cases {u : Char} {n : Nat} (hu : (u, n) ∈ codePointLetters)
    (cs : List Char) :
    readCodePoint n cs = (invalidEscape, 1) ∨
      ReadsEscape (u :: cs) (readCodePoint n cs).1 (readCodePoint n cs).2 := by
  unfold readCodePoint
  dsimp only
  split
  · rename_i hds
    have hescape := Escape.codePoint hu hds.1 (List.all_eq_true.mp hds.2)
    have htext : '\\' :: u :: cs = '\\' :: u :: cs.take n ++ cs.drop n := by
      rw [List.cons_append, List.cons_append, List.take_append_drop]
    refine .inr ⟨_, _, _, hescape, htext, ?_, ?_⟩
    · split <;> simp only [List.length_cons, hds.1] <;> omega
    · split
      · show bytes _ = bytes _
        rw [Utf8.encode_cons, Utf8.encode_nil, List.append_nil]
      · rfl
  · exact .inl rfl

theorem mem_escapeLetters {c : Char} {b : UInt8} (h : letterEscape? c = some b) :
    (c, b) ∈ escapeLetters := by
  revert h
  fun_cases letterEscape? c with
  | case12 => exact nofun
  | _ =>
      subst c
      rintro ⟨⟩
      decide

/-- The digits at the front of a text, up to so many, with what stands behind them. -/
theorem exists_behind_digits (p : Char → Bool) (n : Nat) (cs : List Char) :
    ∃ rest, cs = (cs.take n).takeWhile p ++ rest ∧ ((cs.take n).takeWhile p).length ≤ n ∧
      ∀ d ∈ (cs.take n).takeWhile p, p d = true := by
  obtain ⟨rest, hrest⟩ : (cs.take n).takeWhile p <+: cs :=
    (List.takeWhile_prefix _).trans (List.take_prefix _ _)
  have hlen : ((cs.take n).takeWhile p).length ≤ n :=
    Nat.le_trans (List.takeWhile_prefix _).length_le (List.length_take_le _ _)
  exact ⟨rest, hrest.symm, hlen, fun d hd => List.mem_takeWhile_imp hd⟩

theorem readEscape_hex {x : Char} (hx : x = 'x' ∨ x = 'X') (cs : List Char) :
    readEscape (x :: cs) = (invalidEscape, 1) ∨
      ReadsEscape (x :: cs) (readEscape (x :: cs)).1 (readEscape (x :: cs)).2 := by
  rw [readEscape, if_pos hx]
  split
  · exact .inl rfl
  · rename_i hne
    obtain ⟨rest, hrest, hlen, hds⟩ := exists_behind_digits isHexDigit 2 cs
    refine .inr ⟨_, rest, _, .hex hx hne hlen hds, ?_, ?_, rfl⟩
    · rw [List.cons_append, List.cons_append, ← hrest]
    · simp only [List.length_cons]
      omega

theorem readEscape_octal {c : Char} (hx : ¬(c = 'x' ∨ c = 'X')) (hc : isOctalDigit c = true)
    (cs : List Char) :
    ReadsEscape (c :: cs) (readEscape (c :: cs)).1 (readEscape (c :: cs)).2 := by
  rw [readEscape, if_neg hx, if_pos hc]
  obtain ⟨rest, hrest, hlen, hds⟩ := exists_behind_digits isOctalDigit 3 (c :: cs)
  have hne : ((c :: cs).take 3).takeWhile isOctalDigit ≠ [] := by
    rw [List.take_succ_cons, List.takeWhile_cons, if_pos hc]
    exact List.cons_ne_nil _ _
  refine ⟨_, rest, _, .octal hne hlen hds, ?_, ?_, ?_⟩
  · rw [List.cons_append, ← hrest]
  · simp only [List.length_cons]
    omega
  · dsimp only
    split <;> rfl

/-- What is read at a backslash is an escape, or the backslash alone. -/
theorem readEscape_cases (text : List Char) :
    readEscape text = (invalidEscape, 1) ∨
      ReadsEscape text (readEscape text).1 (readEscape text).2 := by
  cases text with
  | nil => exact .inl rfl
  | cons c cs =>
      by_cases hx : c = 'x' ∨ c = 'X'
      · exact readEscape_hex hx cs
      by_cases hoctal : isOctalDigit c = true
      · exact .inr (readEscape_octal hx hoctal cs)
      rw [readEscape, if_neg hx, if_neg hoctal]
      split
      · rename_i hu
        subst hu
        exact readCodePoint_cases (by decide) cs
      · split
        · rename_i hu
          subst hu
          exact readCodePoint_cases (by decide) cs
        · split
          · rename_i b hb
            exact .inr ⟨['\\', c], cs, some [b], .letter (mem_escapeLetters hb), rfl, rfl, rfl⟩
          · exact .inl rfl

/-- The part that starts with a backslash. -/
theorem exists_part_of_backslash (quote : Char) (text : List Char) :
    ∃ (part : LiteralPart) (behind rest : List Char), text = behind ++ rest ∧
      part.chars = '\\' :: behind ∧ part.StandsBefore quote rest ∧
      (readEscape text).2 = part.chars.length ∧
      (match part.invalid? with
        | none => (readEscape text).1 = .bytes part.bytes
        | some isEscape => isEscape = true ∧ (readEscape text).1 = .invalidEscape ∧
            part.bytes = []) := by
  rcases readEscape_cases text with hread | ⟨cs, rest, value, hescape, htext, hwidth, hpart⟩
  · refine ⟨.backslash, [], text, rfl, rfl, ?_, ?_, ?_⟩
    · rintro cs value hescape ⟨rest, hrest⟩
      have hle := le_width_of_escape hescape hrest.symm
      have htwo := hescape.two_le_length
      rw [hread] at hle
      exact absurd (Nat.le_trans htwo hle) (by decide)
    · rw [hread]
      rfl
    · exact ⟨rfl, by rw [hread], rfl⟩
  · obtain ⟨behind, rfl, -⟩ := hescape.eq_cons
    have hlongest : IsLongestEscape ('\\' :: behind) rest := by
      rintro longer value' hlonger ⟨rest', hrest'⟩
      rw [← hwidth]
      exact le_width_of_escape hlonger (htext.trans hrest'.symm)
    have hbehind : text = behind ++ rest := List.tail_eq_of_cons_eq htext
    cases value with
    | some bs =>
        exact ⟨.escape ('\\' :: behind) bs, behind, rest, hbehind, rfl, ⟨hescape, hlongest⟩, hwidth,
          hpart⟩
    | none =>
        exact ⟨.valueless ('\\' :: behind), behind, rest, hbehind, rfl, ⟨hescape, hlongest⟩, hwidth,
          rfl, hpart, rfl⟩

end QuotedPart

end ProtoSchema
