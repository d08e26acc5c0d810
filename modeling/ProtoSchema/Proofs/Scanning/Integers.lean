/-
Integer literals have the value that their digits denote.

An integer is written in decimal, or behind a zero in octal, or behind a zero and an x in
hexadecimal; `IntegerNumeral` is this grammar, with the number that each numeral denotes.  The
scanner takes a longest numeral, which may be one of a fraction, so it settles on a radix only at
the end.  The two agree, but for what a zero is followed by: the scanner takes all decimal digits
with it.  If the first of them is octal, another digit among them is reported as if the number were
too large.  If the first is an eight or a nine, the literal is taken for the zero alone: nothing is
reported, and the digits are lost.  This is the only way in which an integer gets a wrong value
silently.
-/
import ProtoSchema.Proofs.Positions.Notes
import ProtoSchema.Proofs.Scanning.Literals

namespace ProtoSchema

/-- Integer numerals, with the number that each denotes. -/
inductive IntegerNumeral : List Char → Nat → Prop
  | decimal {d : Char} {ds : List Char} : d ≠ '0' → (∀ c ∈ d :: ds, c.isDigit = true) →
      IntegerNumeral (d :: ds) (valueOfDigits 10 (d :: ds))
  /-- A zero by itself is an octal numeral without other digits. -/
  | octal {ds : List Char} : (∀ c ∈ ds, isOctalDigit c = true) →
      IntegerNumeral ('0' :: ds) (valueOfDigits 8 ds)
  | hexadecimal {x d : Char} {ds : List Char} : (x = 'x' ∨ x = 'X') →
      (∀ c ∈ d :: ds, isHexDigit c = true) →
      IntegerNumeral ('0' :: x :: d :: ds) (valueOfDigits 16 (d :: ds))

/-- A zero before decimal digits that start with no octal digit. -/
def StrayZero (text : List Char) : Prop :=
  ∃ d ds, text = '0' :: d :: ds ∧ isOctalDigit d = false ∧ ∀ c ∈ d :: ds, c.isDigit = true

/-! ### Digits -/

theorem isOctalDigit_iff {c : Char} : isOctalDigit c = true ↔ 48 ≤ c.toNat ∧ c.toNat ≤ 55 := by
  simp only [isOctalDigit, Bool.and_eq_true, decide_eq_true_eq, Char.le_def,
    UInt32.le_iff_toNat_le]
  exact Iff.rfl

theorem isDigit_iff {c : Char} : c.isDigit = true ↔ 48 ≤ c.toNat ∧ c.toNat ≤ 57 := by
  simp only [Char.isDigit, Bool.and_eq_true, decide_eq_true_eq, ge_iff_le,
    UInt32.le_iff_toNat_le]
  exact Iff.rfl

/-- Among decimal digits the octal ones are digits to eight. -/
theorem isDigitTo_eight {c : Char} (h : c.isDigit = true) : isDigitTo 8 c = isOctalDigit c := by
  have hhex : isHexDigit c = true := by simp [isHexDigit, h]
  rw [Bool.eq_iff_iff, isOctalDigit_iff, isDigitTo, hhex, Bool.true_and, decide_eq_true_eq,
    digitValue_of_isDigit h]
  have := isDigit_iff.mp h
  omega

theorem isDigitTo_sixteen {c : Char} (h : isHexDigit c = true) : isDigitTo 16 c = true := by
  have hle (a b : Char) : a ≤ b ↔ a.toNat ≤ b.toNat := by
    rw [Char.le_def, UInt32.le_iff_toNat_le]
    exact Iff.rfl
  have hf : 'f'.toNat = 102 := rfl
  have ha : 'a'.toNat = 97 := rfl
  have hF : 'F'.toNat = 70 := rfl
  rw [isDigitTo, h, Bool.true_and, decide_eq_true_eq]
  by_cases hd : c.isDigit = true
  · rw [digitValue_of_isDigit hd]
    have := isDigit_iff.mp hd
    omega
  · simp only [isHexDigit, hd, Bool.or_eq_true, Bool.false_eq_true, Bool.and_eq_true,
      decide_eq_true_eq, false_or, hle] at h
    rw [digitValue, if_neg hd]
    by_cases hlower : 'a' ≤ c
    · rw [if_pos hlower]
      rw [hle] at hlower
      omega
    · rw [if_neg hlower]
      rw [hle] at hlower
      omega

/-- A stray zero is no numeral to any radix. -/
theorem StrayZero.not_numeral {text : List Char} (h : StrayZero text) (n : Nat) :
    ¬ IntegerNumeral text n := by
  obtain ⟨d, ds, rfl, ho, hd⟩ := h
  intro hn
  cases hn with
  | decimal hne _ => exact hne rfl
  | octal hall => simp [hall d (.head _)] at ho
  | hexadecimal hx _ =>
      have hdigit : d.isDigit = true := hd d (.head _)
      rcases hx with rfl | rfl <;> exact absurd hdigit (by decide)

/-- A numeral denotes one number. -/
theorem IntegerNumeral.unique {text : List Char} {n m : Nat} (hn : IntegerNumeral text n)
    (hm : IntegerNumeral text m) : n = m := by
  cases hn with
  | decimal hd _ =>
      cases hm with
      | decimal => rfl
      | octal => exact absurd rfl hd
      | hexadecimal => exact absurd rfl hd
  | octal ho =>
      cases hm with
      | decimal hd _ => exact absurd rfl hd
      | octal => rfl
      | hexadecimal hx _ => exact absurd hx (ne_x_of_isOctalDigit (ho _ (.head _)))
  | hexadecimal hx _ =>
      cases hm with
      | decimal hd _ => exact absurd rfl hd
      | octal ho => exact absurd hx (ne_x_of_isOctalDigit (ho _ (.head _)))
      | hexadecimal => rfl

/-! ### Numerals -/

/-- The texts that are taken for a numeral of integers. -/
inductive Numeral.Spelled : Numeral → List Char → Prop
  | zero : Spelled .zero ['0']
  | strayZero {text : List Char} : StrayZero text → Spelled .zero text
  | octal {d : Char} {ds : List Char} : isOctalDigit d = true → (∀ c ∈ d :: ds, c.isDigit = true) →
      Spelled (.integer 8 (d :: ds)) ('0' :: d :: ds)
  | decimal {d : Char} {ds : List Char} : d ≠ '0' → (∀ c ∈ d :: ds, c.isDigit = true) →
      Spelled (.integer 10 (d :: ds)) (d :: ds)
  | hexadecimal {x d : Char} {ds : List Char} : (x = 'x' ∨ x = 'X') →
      (∀ c ∈ d :: ds, isHexDigit c = true) →
      Spelled (.integer 16 (d :: ds)) ('0' :: x :: d :: ds)

theorem Numeral.spelled_ofDigits {d : Char} {ds : List Char}
    (hd : ∀ c ∈ d :: ds, c.isDigit = true) : Spelled (ofDigits (d :: ds)) (d :: ds) := by
  unfold ofDigits
  split
  · rename_i e es heq
    obtain ⟨rfl, rfl⟩ := List.cons.inj heq
    by_cases he : isOctalDigit e = true
    · rw [if_pos he]
      exact .octal he fun c hc => hd c (.tail _ hc)
    · rw [if_neg he]
      exact .strayZero ⟨e, es, rfl, Bool.not_eq_true _ ▸ he, fun c hc => hd c (.tail _ hc)⟩
  · rename_i heq
    obtain ⟨rfl, rfl⟩ := List.cons.inj heq
    exact .zero
  · rename_i hlong hshort
    refine .decimal ?_ hd
    rintro rfl
    cases ds with
    | nil => exact hshort rfl
    | cons e es => exact hlong e es rfl

theorem hexPart?_eq_some {cs ds : List Char} (h : hexPart? cs = some ds) :
    ∃ x d es rest, ds = d :: es ∧ cs = x :: (ds ++ rest) ∧ (x = 'x' ∨ x = 'X') ∧
      ∀ c ∈ ds, isHexDigit c = true := by
  cases cs with
  | nil => cases h
  | cons x cs =>
      unfold hexPart? at h
      by_cases hx : x = 'x' ∨ x = 'X'
      · simp only [hx, if_true] at h
        split at h
        · cases h
        · rename_i ds' hne
          cases h
          cases htake : cs.takeWhile isHexDigit with
          | nil => exact absurd htake hne
          | cons d es =>
              refine ⟨x, d, es, cs.dropWhile isHexDigit, rfl, ?_, hx, ?_⟩
              · rw [← htake, List.takeWhile_append_dropWhile]
              · intro c hc
                rw [← htake] at hc
                exact List.mem_takeWhile_imp hc
      · simp [hx] at h

/-- What is taken for an integer is spelled by the characters that it takes. -/
theorem Numeral.spelled_read {c : Char} {cs : List Char} {numeral : Numeral} {width : Nat}
    (hc : c.isDigit = true ∨ c = '.') (h : read (c :: cs) = (numeral, width))
    (hfloat : ∀ value, numeral ≠ .float value) : Spelled numeral ((c :: cs).take width) := by
  have hparts := List.takeWhile_append_dropWhile (p := Char.isDigit) (l := c :: cs)
  have hdigits : ∀ d ∈ (c :: cs).takeWhile Char.isDigit, d.isDigit = true :=
    fun d hd => List.mem_takeWhile_imp hd
  have hfront : c.isDigit = true → (c :: cs).takeWhile Char.isDigit ≠ [] := by
    intro hd
    simp [hd]
  unfold read at h
  generalize (c :: cs).takeWhile Char.isDigit = whole at h hparts hdigits hfront
  generalize (c :: cs).dropWhile Char.isDigit = rest at h hparts
  dsimp only at h
  split at h
  · exact absurd (congrArg Prod.fst h).symm (hfloat _)
  rename_i hpoint
  split at h
  · exact absurd (congrArg Prod.fst h).symm (hfloat _)
  rw [← hparts]
  -- Only a zero alone may be the start of a hexadecimal numeral.
  by_cases hzero : whole = ['0']
  · subst hzero
    rw [if_pos rfl] at h
    split at h
    · rename_i ds hhex
      obtain ⟨x, d, es, rest', rfl, rfl, hx, hall⟩ := hexPart?_eq_some hhex
      obtain ⟨rfl, rfl⟩ := Prod.mk.inj h
      have htake : (['0'] ++ x :: (d :: es ++ rest')).take (2 + (d :: es).length) =
          '0' :: x :: d :: es := by
        rw [show ['0'] ++ x :: (d :: es ++ rest') = ('0' :: x :: d :: es) ++ rest' from rfl]
        exact List.take_left' (by simp; omega)
      rw [htake]
      exact .hexadecimal hx hall
    · obtain ⟨rfl, rfl⟩ := Prod.mk.inj h
      exact .zero
  · rw [if_neg hzero] at h
    obtain ⟨rfl, rfl⟩ := Prod.mk.inj h
    rw [List.take_left]
    cases whole with
    | nil =>
        -- Without a digit in front there is a point, and that was excluded above.
        obtain rfl : c :: cs = rest := hparts.symm
        rcases hc with hc | rfl
        · exact absurd rfl (hfront hc)
        · exact absurd rfl (hpoint cs)
    | cons d ds => exact spelled_ofDigits hdigits

/-! ### Literals -/

/--
What becomes of an integer literal, by its text and the lexemes before it.  The note that a number
is out of range stands right before the token, if there is one.
-/
inductive IntegerFate (pre : List Lexeme) (span : Span) (text : List Char) : UInt64 → Prop
  /-- A numeral has the number that it denotes. -/
  | exact {v : UInt64} (numeral : IntegerNumeral text v.toNat)
      (unreported : pre.getLast? ≠ some (.note (.integerOutOfRange span))) :
      IntegerFate pre span text v
  | tooLarge {n : Nat} (numeral : IntegerNumeral text n) (large : UInt64.size ≤ n)
      (reported : pre.getLast? = some (.note (.integerOutOfRange span))) :
      IntegerFate pre span text 0
  | misspelled (wrong : ∀ n, ¬ IntegerNumeral text n)
      (reported : pre.getLast? = some (.note (.integerOutOfRange span))) :
      IntegerFate pre span text 0
  /-- No note stands before a stray zero. -/
  | strayZero (wrong : StrayZero text) (unreported : ∀ l ∈ pre.getLast?, l.note? = none) :
      IntegerFate pre span text 0

/-- Only a digit or a point starts an integer. -/
theorem Item.read_of_int {offset : Nat} {c : Char} {cs : List Char} {v : UInt64}
    (h : (read offset c cs).reading = .token (.int v)) :
    (c.isDigit = true ∨ c = '.') ∧ read offset c cs = readNumeral offset (c :: cs) := by
  rcases read_cases offset c cs with ⟨-, hr⟩ | ⟨-, hr⟩ | ⟨hc, hr⟩ | ⟨hc, hr⟩ | ⟨-, hr⟩ | ⟨p, -, hr⟩ |
    ⟨-, hr⟩
  · rw [hr] at h
    cases h
  · rw [hr] at h
    cases h
  · exact ⟨hc.imp_right And.left, hr⟩
  · rw [hr] at h
    cases h
  · rw [hr] at h
    exact absurd h (readSlash_reading offset cs _)
  · rw [hr] at h
    cases h
  · rw [hr] at h
    cases h

/-- What the digits of a numeral make, and what is noted when they make nothing. -/
theorem Numeral.Spelled.cases_value {radix : Nat} {ds text : List Char}
    (h : Spelled (.integer radix ds) text) :
    (∃ v : UInt64, integerValue? radix ds = some v ∧ IntegerNumeral text v.toNat) ∨
    integerValue? radix ds = none ∧
      ((∃ n, UInt64.size ≤ n ∧ IntegerNumeral text n) ∨ ∀ n, ¬ IntegerNumeral text n) := by
  -- Digits that suit the radix make a numeral, which 64 bits hold or do not.
  have hvalue (hall : ∀ c ∈ ds, isDigitTo radix c = true)
      (hn : IntegerNumeral text (valueOfDigits radix ds)) :
      (∃ v : UInt64, integerValue? radix ds = some v ∧ IntegerNumeral text v.toNat) ∨
      integerValue? radix ds = none ∧ ∃ n, UInt64.size ≤ n ∧ IntegerNumeral text n := by
    by_cases hsize : valueOfDigits radix ds < 18446744073709551616
    · refine .inl ⟨UInt64.ofNat (valueOfDigits radix ds), ?_, ?_⟩
      · exact if_pos ⟨List.all_eq_true.mpr hall, hsize⟩
      · rw [UInt64.toNat_ofNat_of_lt' hsize]
        exact hn
    · exact .inr ⟨if_neg fun hc => hsize hc.2, _, Nat.le_of_not_lt hsize, hn⟩
  cases h with
  | decimal hd hds =>
      exact (hvalue (fun c hc => isDigitTo_of_isDigit (hds c hc)) (.decimal hd hds)).imp_right
        fun ⟨hnone, hlarge⟩ => ⟨hnone, .inl hlarge⟩
  | hexadecimal hx hds =>
      exact (hvalue (fun c hc => isDigitTo_sixteen (hds c hc)) (.hexadecimal hx hds)).imp_right
        fun ⟨hnone, hlarge⟩ => ⟨hnone, .inl hlarge⟩
  | @octal d ds hd hds =>
      by_cases hall : ∀ c ∈ d :: ds, isOctalDigit c = true
      · refine (hvalue (fun c hc => ?_) (.octal hall)).imp_right
          fun ⟨hnone, hlarge⟩ => ⟨hnone, .inl hlarge⟩
        rw [isDigitTo_eight (hds c hc)]
        exact hall c hc
      · refine .inr ⟨if_neg fun hc => hall fun c hm => ?_, .inr fun n hn => ?_⟩
        · rw [← isDigitTo_eight (hds c hm)]
          exact List.all_eq_true.mp hc.1 c hm
        · cases hn with
          | decimal hne _ => exact hne rfl
          | octal hoctal => exact hall hoctal
          | hexadecimal hx _ => exact ne_x_of_isOctalDigit hd hx

theorem getLast?_ne_note {ls : List Lexeme} (h : ∀ l ∈ ls.getLast?, l.note? = none)
    (d : Diagnostic) : ls.getLast? ≠ some (.note d) := by
  intro hlast
  exact absurd (h _ hlast) (by simp [Lexeme.note?])

/-- The note that an integer is out of range is the last one on it. -/
theorem getLast?_integerNotes {earlier : List Lexeme} (offset width : Nat) (rest : List Char)
    (value? : Option UInt64) (hearlier : ∀ l ∈ earlier.getLast?, l.note? = none) :
    (earlier ++ (Item.integerNotes offset width rest value?).map Lexeme.note).getLast? =
        some (.note (.integerOutOfRange ⟨offset, offset + width⟩)) ↔ value? = none := by
  unfold Item.integerNotes
  cases value? with
  | none => simp
  | some v =>
      dsimp only
      rw [Option.isNone_some, if_neg Bool.false_ne_true, List.append_nil]
      refine iff_of_false ?_ (by simp)
      -- All that is left to be the last is a note on a word, or no note.
      cases rest with
      | nil =>
          rw [List.map_nil, List.append_nil]
          exact getLast?_ne_note hearlier _
      | cons c cs =>
          by_cases hc : isWordStart c = true
          · simp [hc]
          · dsimp only
            rw [if_neg hc, List.map_nil, List.append_nil]
            exact getLast?_ne_note hearlier _

/-- What becomes of an integer token follows from how it is read. -/
theorem integerFate_of_tokenAt {source before cs : List Char} {pre : List Lexeme} {v : UInt64}
    {span : Span} {c : Char} (h : TokenAt source (.int v) span pre before c cs) :
    ∃ text rest, source = before ++ (text ++ rest) ∧ span = .behind before text ∧
      IntegerFate pre span text v := by
  obtain ⟨rfl, hreading, rfl, earlier, hpre, hearlier⟩ := h
  obtain ⟨hc, hread⟩ := Item.read_of_int hreading
  refine ⟨_, _, by rw [Item.taken_append_left], rfl, ?_⟩
  rw [hread] at hreading hpre
  unfold Item.taken
  rw [hread, Item.readNumeral_width]
  unfold Item.readNumeral at hreading hpre
  have hlen := Numeral.read_length (c :: cs)
  rcases hn : Numeral.read (c :: cs) with ⟨numeral, width⟩
  rw [hn] at hreading hpre hlen
  cases numeral with
  | float value => cases hreading
  | zero =>
      cases hreading
      rw [List.map_nil, List.append_nil] at hpre
      -- A zero alone takes no note, so the last lexeme before it is one of the earlier ones.
      have hspelled := Numeral.spelled_read hc hn (by simp)
      rw [← hpre] at hearlier
      dsimp only
      generalize (c :: cs).take width = text at hspelled ⊢
      cases hspelled with
      | zero => exact .exact (.octal (by simp)) (getLast?_ne_note hearlier _)
      | strayZero hstray => exact .strayZero hstray hearlier
  | integer radix ds =>
      cases hreading
      have hspelled := Numeral.spelled_read hc hn (by simp)
      have hsize : Utf8.size ((c :: cs).take width) = width := by
        rw [(Numeral.narrow_of_read hn).size, List.length_take, Nat.min_eq_left hlen]
      have hlast := getLast?_integerNotes (Utf8.size before) width ((c :: cs).drop width)
        (integerValue? radix ds) hearlier
      rw [← hpre] at hlast
      dsimp only [Span.behind]
      rw [hsize]
      rcases hspelled.cases_value with ⟨v, hv, hnumeral⟩ | ⟨hv, ⟨n, hlarge, hnumeral⟩ | hwrong⟩
      · rw [hv] at hlast ⊢
        exact .exact hnumeral fun hnote => absurd (hlast.mp hnote) (by simp)
      · rw [hv]
        exact .tooLarge hnumeral hlarge (hlast.mpr hv)
      · rw [hv]
        exact .misspelled hwrong (hlast.mpr hv)

/--
**Only a stray zero is wrong silently.**  Wherever a scan has an integer token, it covers an integer
numeral and has the number that this denotes; or it has the value zero, and the number is reported
to be out of range, which it is, or the text is no numeral; or it is a zero before an eight or a
nine.  What is noted before the token is among what parsing reports.
-/
theorem integerFate_of_scan {source : List Char} {pre post : List Lexeme} {v : UInt64} {span : Span}
    (h : scan source = pre ++ .token (.int v) span :: post) :
    (∃ before text rest, source = before ++ (text ++ rest) ∧ span = .behind before text ∧
      IntegerFate pre span text v) ∧
    (.note (.integerOutOfRange span) ∈ pre →
      .integerOutOfRange span ∈ (parseFile source).diagnostics) := by
  constructor
  · obtain ⟨mark, behind, rfl, hscan, -⟩ := scan_eq source
    rw [hscan] at h
    obtain ⟨before, c, cs, htoken⟩ := exists_tokenAt_of_scanFrom mark behind pre h
    exact ⟨before, integerFate_of_tokenAt htoken⟩
  · intro hnote
    have hmem : Diagnostic.integerOutOfRange span ∈ notesAmong (parseFile source).diagnostics := by
      rw [notes_of_parseFile, h]
      refine List.mem_filter.mpr ⟨List.mem_filterMap.mpr ⟨.note _, ?_, rfl⟩, rfl⟩
      exact List.mem_append_left _ hnote
    exact (List.mem_filter.mp hmem).1

/-- Behind a word, an integer that is one too large, with a word that touches it. -/
def largeText : String := "max=18446744073709551616u"

theorem integerFate_of_scan_large :
    scan largeText.toList =
        [.token (.ident "max") ⟨0, 3⟩, .token (.mark .equals) ⟨3, 4⟩,
          .note (.noSpaceBetweenIntAndIdent ⟨4, 25⟩), .note (.integerOutOfRange ⟨4, 24⟩)] ++
        .token (.int 0) ⟨4, 24⟩ :: [.token (.ident "u") ⟨24, 25⟩] ∧
      (∃ before text rest, largeText.toList = before ++ (text ++ rest) ∧
        ⟨4, 24⟩ = Span.behind before text ∧
        IntegerFate [.token (.ident "max") ⟨0, 3⟩, .token (.mark .equals) ⟨3, 4⟩,
          .note (.noSpaceBetweenIntAndIdent ⟨4, 25⟩), .note (.integerOutOfRange ⟨4, 24⟩)]
          ⟨4, 24⟩ text 0) ∧
      .integerOutOfRange ⟨4, 24⟩ ∈ (parseFile largeText.toList).diagnostics := by
  have hscan : scan largeText.toList =
      [.token (.ident "max") ⟨0, 3⟩, .token (.mark .equals) ⟨3, 4⟩,
        .note (.noSpaceBetweenIntAndIdent ⟨4, 25⟩), .note (.integerOutOfRange ⟨4, 24⟩)] ++
      .token (.int 0) ⟨4, 24⟩ :: [.token (.ident "u") ⟨24, 25⟩] := by
    decide +kernel
  obtain ⟨hfate, hreported⟩ := integerFate_of_scan hscan
  exact ⟨hscan, hfate, hreported (by decide)⟩

/-- A stray zero goes through a scan, and a parse, with nothing noted about it. -/
theorem exists_stray_zero :
    scan "08".toList = [.token (.int 0) ⟨0, 2⟩] ∧ Text.slice "08".toList ⟨0, 2⟩ = ['0', '8'] ∧
      (∀ n, ¬ IntegerNumeral ['0', '8'] n) ∧
      (parseFile "enum E \x7b A = 08; \x7d".toList).diagnostics = [] := by
  refine ⟨by decide +kernel, by decide, ?_, by decide +kernel⟩
  have hdigits : ∀ c ∈ ['8'], c.isDigit = true := List.forall_mem_singleton.mpr (by decide)
  exact StrayZero.not_numeral ⟨'8', [], rfl, by decide, hdigits⟩

end ProtoSchema
