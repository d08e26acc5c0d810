/-
Decoding undoes encoding.

The automaton reads the bytes of a character one by one and gives back the character.
The first byte of a sequence decides how many follow and which values the second may
take; the bounds on the second byte hold because a character is neither written longer
than it needs to be, nor a surrogate, nor beyond the last code point.
-/
import ProtoSchema.Text.Utf8

namespace ProtoSchema.Utf8

/-- A byte by its value. -/
theorem toNat_byte {n : Nat} (h : n < 256) : (UInt8.ofNat n).toNat = n := by
  rw [UInt8.toNat_ofNat']
  exact Nat.mod_eq_of_lt h

/-! ### One byte -/

/-- A byte within its bounds that is the last one of a character. -/
theorem piecesFrom_last {low high : UInt8} {bits n : Nat} {bs : List UInt8} (hn : n < 256)
    (hl : low.toNat ≤ n) (hh : n ≤ high.toNat) :
    piecesFrom (.within 0 low high bits) (UInt8.ofNat n :: bs) =
      some (Char.ofNat (bits * 64 + (n - 0x80))) :: pieces bs := by
  have h : low ≤ UInt8.ofNat n ∧ UInt8.ofNat n ≤ high := by
    rw [UInt8.le_iff_toNat_le, UInt8.le_iff_toNat_le, toNat_byte hn]
    exact ⟨hl, hh⟩
  simp only [piecesFrom, step, if_pos h, toNat_byte hn]
  rfl

/-- A byte within its bounds with more to follow. -/
theorem piecesFrom_more {owed : Nat} {low high : UInt8} {bits n : Nat} {bs : List UInt8}
    (hn : n < 256) (hl : low.toNat ≤ n) (hh : n ≤ high.toNat) :
    piecesFrom (.within (owed + 1) low high bits) (UInt8.ofNat n :: bs) =
      piecesFrom (.within owed 0x80 0xBF (bits * 64 + (n - 0x80))) bs := by
  have h : low ≤ UInt8.ofNat n ∧ UInt8.ofNat n ≤ high := by
    rw [UInt8.le_iff_toNat_le, UInt8.le_iff_toNat_le, toNat_byte hn]
    exact ⟨hl, hh⟩
  simp only [piecesFrom, step, if_pos h, toNat_byte hn]
  rfl

/-- The first byte of a character. -/
theorem pieces_lead {n : Nat} {bs : List UInt8} {s : State}
    (h : lead (UInt8.ofNat n) = ([], s)) :
    pieces (UInt8.ofNat n :: bs) = piecesFrom s bs := by
  simp only [pieces, piecesFrom, step, h]
  rfl

/-! ### One character -/

theorem pieces_one {v : Nat} {bs : List UInt8} (h : v ≤ 0x7F) :
    pieces (UInt8.ofNat v :: bs) = some (Char.ofNat v) :: pieces bs := by
  have hl : lead (UInt8.ofNat v) = ([some (Char.ofNat v)], .ready) := by
    simp only [lead, toNat_byte (show v < 256 by omega)]
    exact if_pos (by omega)
  simp only [pieces, piecesFrom, step, hl]
  rfl

theorem pieces_two {v : Nat} {bs : List UInt8} (hl : 0x7F < v) (hh : v ≤ 0x7FF) :
    pieces (UInt8.ofNat (v / 64 % 0x20 + 0xC0) :: UInt8.ofNat (v % 0x40 + 0x80) :: bs) =
      some (Char.ofNat v) :: pieces bs := by
  have hn : v / 64 % 0x20 + 0xC0 < 256 := by omega
  have h : lead (UInt8.ofNat (v / 64 % 0x20 + 0xC0)) =
      ([], .within 0 0x80 0xBF (v / 64 % 0x20 + 0xC0 - 0xC0)) := by
    simp only [lead, toNat_byte hn]
    rw [if_neg (by omega), if_neg (by omega), if_pos (by omega)]
  rw [pieces_lead h, piecesFrom_last (by omega) (show 0x80 ≤ _ by omega) (show _ ≤ 0xBF by omega)]
  exact congrArg (fun n => some (Char.ofNat n) :: pieces bs) (by omega)

theorem pieces_three {v : Nat} {bs : List UInt8} (hl : 0x7FF < v) (hh : v ≤ 0xFFFF)
    (hs : v < 0xD800 ∨ 0xDFFF < v) :
    pieces (UInt8.ofNat (v / 4096 % 0x10 + 0xE0) :: UInt8.ofNat (v / 64 % 0x40 + 0x80) ::
        UInt8.ofNat (v % 0x40 + 0x80) :: bs) =
      some (Char.ofNat v) :: pieces bs := by
  have hn : v / 4096 % 0x10 + 0xE0 < 256 := by omega
  have hv : ((v / 4096 % 0x10 + 0xE0 - 0xE0) * 64 + (v / 64 % 0x40 + 0x80 - 0x80)) * 64 +
      (v % 0x40 + 0x80 - 0x80) = v := by omega
  -- The second byte has a bound of its own behind the least lead and behind that of surrogates.
  obtain ⟨low, high, h, h₁, h₂⟩ : ∃ low high,
      lead (UInt8.ofNat (v / 4096 % 0x10 + 0xE0)) =
        ([], .within 1 low high (v / 4096 % 0x10 + 0xE0 - 0xE0)) ∧
      low.toNat ≤ v / 64 % 0x40 + 0x80 ∧ v / 64 % 0x40 + 0x80 ≤ high.toNat := by
    simp only [lead, toNat_byte hn]
    rw [if_neg (by omega), if_neg (by omega), if_neg (by omega)]
    by_cases h0 : v / 4096 % 0x10 + 0xE0 = 0xE0
    · exact ⟨0xA0, 0xBF, by rw [if_pos h0, h0], show 0xA0 ≤ _ by omega, show _ ≤ 0xBF by omega⟩
    by_cases hd : v / 4096 % 0x10 + 0xE0 = 0xED
    · exact ⟨0x80, 0x9F, by rw [if_neg h0, if_pos hd, hd], show 0x80 ≤ _ by omega,
        show _ ≤ 0x9F by omega⟩
    · exact ⟨0x80, 0xBF, by rw [if_neg h0, if_neg hd, if_pos (by omega)], show 0x80 ≤ _ by omega,
        show _ ≤ 0xBF by omega⟩
  rw [pieces_lead h, piecesFrom_more (by omega) h₁ h₂,
    piecesFrom_last (by omega) (show 0x80 ≤ _ by omega) (show _ ≤ 0xBF by omega), hv]

theorem pieces_four {v : Nat} {bs : List UInt8} (hl : 0xFFFF < v) (hh : v < 0x110000) :
    pieces (UInt8.ofNat (v / 262144 % 0x08 + 0xF0) :: UInt8.ofNat (v / 4096 % 0x40 + 0x80) ::
        UInt8.ofNat (v / 64 % 0x40 + 0x80) :: UInt8.ofNat (v % 0x40 + 0x80) :: bs) =
      some (Char.ofNat v) :: pieces bs := by
  have hn : v / 262144 % 0x08 + 0xF0 < 256 := by omega
  have hv : (((v / 262144 % 0x08 + 0xF0 - 0xF0) * 64 + (v / 4096 % 0x40 + 0x80 - 0x80)) * 64 +
      (v / 64 % 0x40 + 0x80 - 0x80)) * 64 + (v % 0x40 + 0x80 - 0x80) = v := by omega
  obtain ⟨low, high, h, h₁, h₂⟩ : ∃ low high,
      lead (UInt8.ofNat (v / 262144 % 0x08 + 0xF0)) =
        ([], .within 2 low high (v / 262144 % 0x08 + 0xF0 - 0xF0)) ∧
      low.toNat ≤ v / 4096 % 0x40 + 0x80 ∧ v / 4096 % 0x40 + 0x80 ≤ high.toNat := by
    simp only [lead, toNat_byte hn]
    rw [if_neg (by omega), if_neg (by omega), if_neg (by omega), if_neg (by omega),
      if_neg (by omega), if_neg (by omega)]
    by_cases h0 : v / 262144 % 0x08 + 0xF0 = 0xF0
    · exact ⟨0x90, 0xBF, by rw [if_pos h0, h0], show 0x90 ≤ _ by omega, show _ ≤ 0xBF by omega⟩
    by_cases h4 : v / 262144 % 0x08 + 0xF0 < 0xF4
    · exact ⟨0x80, 0xBF, by rw [if_neg h0, if_pos h4], show 0x80 ≤ _ by omega,
        show _ ≤ 0xBF by omega⟩
    · have h4' : v / 262144 % 0x08 + 0xF0 = 0xF4 := by omega
      exact ⟨0x80, 0x8F, by rw [if_neg h0, if_neg h4, if_pos h4', h4'], show 0x80 ≤ _ by omega,
        show _ ≤ 0x8F by omega⟩
  rw [pieces_lead h, piecesFrom_more (by omega) h₁ h₂,
    piecesFrom_more (by omega) (show 0x80 ≤ _ by omega) (show _ ≤ 0xBF by omega),
    piecesFrom_last (by omega) (show 0x80 ≤ _ by omega) (show _ ≤ 0xBF by omega), hv]

/-- The bytes of a character are read as that character. -/
theorem pieces_encodeChar (c : Char) (bs : List UInt8) :
    pieces (String.utf8EncodeChar c ++ bs) = some c :: pieces bs := by
  have hc : Char.ofNat c.val.toNat = c := Char.ofNat_toNat c
  have hv := c.valid
  unfold UInt32.isValidChar Nat.isValidChar at hv
  simp only [String.utf8EncodeChar]
  split
  · rename_i h
    exact (pieces_one h).trans (by rw [hc]; rfl)
  split
  · rename_i h₁ h₂
    exact (pieces_two (by omega) h₂).trans (by rw [hc]; rfl)
  split
  · rename_i h₁ h₂ h₃
    exact (pieces_three (by omega) h₃ (by omega)).trans (by rw [hc]; rfl)
  · rename_i h₁ h₂ h₃
    exact (pieces_four (by omega) (by omega)).trans (by rw [hc]; rfl)

/-! ### Texts -/

theorem pieces_encode (cs : List Char) : pieces (encode cs) = cs.map some := by
  induction cs with
  | nil => rfl
  | cons c cs ih => rw [encode_cons, pieces_encodeChar, ih, List.map_cons]

/-- **The bytes of a text decode to that text.** -/
theorem decode?_encode (cs : List Char) : decode? (encode cs) = some cs := by
  rw [decode?, pieces_encode]
  induction cs with
  | nil => rfl
  | cons c cs ih => rw [List.map_cons, List.mapM_cons, ih]; rfl

/-! ### Bytes that decode

A text that is decoded has the bytes it was decoded from.  Within a character a byte out of bounds
shows as an ill-formed piece, so if there is none every byte keeps its bounds, and the bounds say
that the character is written in the one way there is.
-/

/-- Within a character that is well formed, the next byte is there and keeps its bounds. -/
theorem exists_of_piecesFrom {owed : Nat} {low high : UInt8} {bits : Nat} {bs : List UInt8}
    {cs : List Char} (h : piecesFrom (.within owed low high bits) bs = cs.map some) :
    ∃ n bs', n < 256 ∧ bs = UInt8.ofNat n :: bs' ∧ low.toNat ≤ n ∧ n ≤ high.toNat := by
  have hnone : ∀ xs : List (Option Char), none :: xs ≠ cs.map some := by
    intro xs heq
    have hmem : none ∈ cs.map some := heq ▸ List.mem_cons_self
    obtain ⟨c, -, hc⟩ := List.mem_map.mp hmem
    cases hc
  cases bs with
  | nil => exact absurd h (hnone [])
  | cons b bs =>
      refine ⟨b.toNat, bs, b.toNat_lt, by rw [UInt8.ofNat_toNat], ?_⟩
      by_cases hb : low ≤ b ∧ b ≤ high
      · exact ⟨UInt8.le_iff_toNat_le.mp hb.1, UInt8.le_iff_toNat_le.mp hb.2⟩
      · simp only [piecesFrom, step, if_neg hb] at h
        exact absurd h (hnone _)

/-- The last byte of a character that is well formed, and what follows. -/
theorem exists_last {low high : UInt8} {bits : Nat} {bs : List UInt8} {cs : List Char}
    (h : piecesFrom (.within 0 low high bits) bs = cs.map some) :
    ∃ n bs' cs', n < 256 ∧ low.toNat ≤ n ∧ n ≤ high.toNat ∧ bs = UInt8.ofNat n :: bs' ∧
      cs = Char.ofNat (bits * 64 + (n - 0x80)) :: cs' ∧ pieces bs' = cs'.map some := by
  obtain ⟨n, bs', hn, rfl, hl, hh⟩ := exists_of_piecesFrom h
  rw [piecesFrom_last hn hl hh] at h
  cases cs with
  | nil => cases h
  | cons c cs =>
      obtain ⟨hc, hcs⟩ := List.cons.inj h
      obtain rfl := Option.some.inj hc
      exact ⟨n, bs', cs, hn, hl, hh, rfl, rfl, hcs⟩

/-- A byte of a character that is well formed, with more to follow. -/
theorem exists_more {owed : Nat} {low high : UInt8} {bits : Nat} {bs : List UInt8} {cs : List Char}
    (h : piecesFrom (.within (owed + 1) low high bits) bs = cs.map some) :
    ∃ n bs', n < 256 ∧ low.toNat ≤ n ∧ n ≤ high.toNat ∧ bs = UInt8.ofNat n :: bs' ∧
      piecesFrom (.within owed 0x80 0xBF (bits * 64 + (n - 0x80))) bs' = cs.map some := by
  obtain ⟨n, bs', hn, rfl, hl, hh⟩ := exists_of_piecesFrom h
  rw [piecesFrom_more hn hl hh] at h
  exact ⟨n, bs', hn, hl, hh, rfl, h⟩

theorem toNat_val_ofNat {v : Nat} (h : v.isValidChar) : (Char.ofNat v).val.toNat = v := by
  unfold Char.ofNat
  rw [dif_pos h]
  rfl

theorem encodeChar_two {v : Nat} (hl : 0x7F < v) (hh : v ≤ 0x7FF) :
    String.utf8EncodeChar (Char.ofNat v) =
      [UInt8.ofNat (v / 64 % 0x20 + 0xC0), UInt8.ofNat (v % 0x40 + 0x80)] := by
  simp only [String.utf8EncodeChar, toNat_val_ofNat (v := v) (.inl (by omega))]
  rw [if_neg (by omega), if_pos hh]

theorem encodeChar_three {v : Nat} (hl : 0x7FF < v) (hh : v ≤ 0xFFFF)
    (hs : v < 0xD800 ∨ 0xDFFF < v) : String.utf8EncodeChar (Char.ofNat v) =
      [UInt8.ofNat (v / 4096 % 0x10 + 0xE0), UInt8.ofNat (v / 64 % 0x40 + 0x80),
        UInt8.ofNat (v % 0x40 + 0x80)] := by
  have hv : v.isValidChar := hs.imp id fun h => ⟨h, by omega⟩
  simp only [String.utf8EncodeChar, toNat_val_ofNat hv]
  rw [if_neg (by omega), if_neg (by omega), if_pos hh]

theorem encodeChar_four {v : Nat} (hl : 0xFFFF < v) (hh : v < 0x110000) :
    String.utf8EncodeChar (Char.ofNat v) =
      [UInt8.ofNat (v / 262144 % 0x08 + 0xF0), UInt8.ofNat (v / 4096 % 0x40 + 0x80),
        UInt8.ofNat (v / 64 % 0x40 + 0x80), UInt8.ofNat (v % 0x40 + 0x80)] := by
  have hv : v.isValidChar := .inr ⟨by omega, hh⟩
  simp only [String.utf8EncodeChar, toNat_val_ofNat hv]
  rw [if_neg (by omega), if_neg (by omega), if_neg (by omega)]

/-- What a lead byte comes to: a character, an ill-formed piece, or the start of a character. -/
inductive Leads (n : Nat) : List (Option Char) × State → Prop
  | one : n ≤ 0x7F → Leads n ([some (Char.ofNat n)], .ready)
  | illFormed : Leads n ([none], .ready)
  | two : 0xC2 ≤ n → n < 0xE0 → Leads n ([], .within 0 0x80 0xBF (n - 0xC0))
  /-- Overlong forms and surrogates are ruled out by the bounds on the second byte. -/
  | three {low high : UInt8} : 0xE0 ≤ n → n < 0xF0 → 0x80 ≤ low.toNat → high.toNat ≤ 0xBF →
      (n = 0xE0 → 0xA0 ≤ low.toNat) → (n = 0xED → high.toNat ≤ 0x9F) →
        Leads n ([], .within 1 low high (n - 0xE0))
  | four {low high : UInt8} : 0xF0 ≤ n → n ≤ 0xF4 → 0x80 ≤ low.toNat → high.toNat ≤ 0xBF →
      (n = 0xF0 → 0x90 ≤ low.toNat) → (n = 0xF4 → high.toNat ≤ 0x8F) →
        Leads n ([], .within 2 low high (n - 0xF0))

theorem leads_lead {n : Nat} (hn : n < 256) : Leads n (lead (UInt8.ofNat n)) := by
  simp only [lead, toNat_byte hn]
  -- The bounds are taken in the order of the decoder, so each case has all those before it.
  by_cases h1 : n < 0x80
  · rw [if_pos h1]
    exact .one (by omega)
  by_cases h2 : n < 0xC2
  · rw [if_neg h1, if_pos h2]
    exact .illFormed
  by_cases h3 : n < 0xE0
  · rw [if_neg h1, if_neg h2, if_pos h3]
    exact .two (by omega) h3
  rw [if_neg h1, if_neg h2, if_neg h3]
  by_cases h4 : n = 0xE0
  · subst h4
    exact .three (by decide) (by decide) (by decide) (by decide) (by decide) (by decide)
  by_cases h5 : n = 0xED
  · subst h5
    exact .three (by decide) (by decide) (by decide) (by decide) (by decide) (by decide)
  by_cases h6 : n < 0xF0
  · rw [if_neg h4, if_neg h5, if_pos h6]
    exact .three (by omega) h6 (by decide) (by decide) (by omega) (by omega)
  rw [if_neg h4, if_neg h5, if_neg h6]
  by_cases h7 : n = 0xF0
  · subst h7
    exact .four (by decide) (by decide) (by decide) (by decide) (by decide) (by decide)
  by_cases h8 : n < 0xF4
  · rw [if_neg h7, if_pos h8]
    exact .four (by omega) (by omega) (by decide) (by decide) (by omega) (by omega)
  by_cases h9 : n = 0xF4
  · subst h9
    exact .four (by decide) (by decide) (by decide) (by decide) (by decide) (by decide)
  · rw [if_neg h7, if_neg h8, if_neg h9]
    exact .illFormed

/-- Bytes start with those of the first character of a text, and the others make up its rest. -/
def StartsText (bytes : List UInt8) (cs : List Char) : Prop :=
  ∃ c cs' bs', cs = c :: cs' ∧ bytes = String.utf8EncodeChar c ++ bs' ∧ pieces bs' = cs'.map some

section Widths

variable {n : Nat} {low high : UInt8} {bs : List UInt8} {cs : List Char}

theorem startsText_one (hn : n ≤ 0x7F) (h : pieces (UInt8.ofNat n :: bs) = cs.map some) :
    StartsText (UInt8.ofNat n :: bs) cs := by
  rw [pieces_one hn] at h
  cases cs with
  | nil => cases h
  | cons c cs =>
      obtain ⟨hc, hcs⟩ := List.cons.inj h
      obtain rfl := Option.some.inj hc
      refine ⟨_, cs, bs, rfl, ?_, hcs⟩
      simp only [String.utf8EncodeChar, toNat_val_ofNat (v := n) (.inl (by omega))]
      rw [if_pos hn]
      rfl

theorem startsText_two (hl : 0xC2 ≤ n) (hh : n < 0xE0)
    (h : piecesFrom (.within 0 0x80 0xBF (n - 0xC0)) bs = cs.map some) :
    StartsText (UInt8.ofNat n :: bs) cs := by
  obtain ⟨n₂, bs', cs', -, hl₂, hh₂, rfl, rfl, hrest⟩ := exists_last h
  change 0x80 ≤ n₂ at hl₂
  change n₂ ≤ 0xBF at hh₂
  refine ⟨_, cs', bs', rfl, ?_, hrest⟩
  generalize hv : (n - 0xC0) * 64 + (n₂ - 0x80) = v
  have h₁ : v / 64 % 0x20 + 0xC0 = n := by omega
  have h₂ : v % 0x40 + 0x80 = n₂ := by omega
  rw [encodeChar_two (by omega) (by omega), h₁, h₂]
  rfl

theorem startsText_three (hl : 0xE0 ≤ n) (hh : n < 0xF0) (hlow : 0x80 ≤ low.toNat)
    (hhigh : high.toNat ≤ 0xBF) (hleast : n = 0xE0 → 0xA0 ≤ low.toNat)
    (hsurrogate : n = 0xED → high.toNat ≤ 0x9F)
    (h : piecesFrom (.within 1 low high (n - 0xE0)) bs = cs.map some) :
    StartsText (UInt8.ofNat n :: bs) cs := by
  obtain ⟨n₂, bs₂, -, hl₂, hh₂, rfl, h'⟩ := exists_more h
  obtain ⟨n₃, bs', cs', -, hl₃, hh₃, rfl, rfl, hrest⟩ := exists_last h'
  change 0x80 ≤ n₃ at hl₃
  change n₃ ≤ 0xBF at hh₃
  refine ⟨_, cs', bs', rfl, ?_, hrest⟩
  generalize hv : ((n - 0xE0) * 64 + (n₂ - 0x80)) * 64 + (n₃ - 0x80) = v
  have h₁ : v / 4096 % 0x10 + 0xE0 = n := by omega
  have h₂ : v / 64 % 0x40 + 0x80 = n₂ := by omega
  have h₃ : v % 0x40 + 0x80 = n₃ := by omega
  rw [encodeChar_three (by omega) (by omega) (by omega), h₁, h₂, h₃]
  rfl

theorem startsText_four (hl : 0xF0 ≤ n) (hh : n ≤ 0xF4) (hlow : 0x80 ≤ low.toNat)
    (hhigh : high.toNat ≤ 0xBF) (hleast : n = 0xF0 → 0x90 ≤ low.toNat)
    (hgreatest : n = 0xF4 → high.toNat ≤ 0x8F)
    (h : piecesFrom (.within 2 low high (n - 0xF0)) bs = cs.map some) :
    StartsText (UInt8.ofNat n :: bs) cs := by
  obtain ⟨n₂, bs₂, -, hl₂, hh₂, rfl, h'⟩ := exists_more h
  obtain ⟨n₃, bs₃, -, hl₃, hh₃, rfl, h''⟩ := exists_more h'
  obtain ⟨n₄, bs', cs', -, hl₄, hh₄, rfl, rfl, hrest⟩ := exists_last h''
  change 0x80 ≤ n₃ at hl₃
  change n₃ ≤ 0xBF at hh₃
  change 0x80 ≤ n₄ at hl₄
  change n₄ ≤ 0xBF at hh₄
  refine ⟨_, cs', bs', rfl, ?_, hrest⟩
  generalize hv : (((n - 0xF0) * 64 + (n₂ - 0x80)) * 64 + (n₃ - 0x80)) * 64 + (n₄ - 0x80) = v
  have h₁ : v / 262144 % 0x08 + 0xF0 = n := by omega
  have h₂ : v / 4096 % 0x40 + 0x80 = n₂ := by omega
  have h₃ : v / 64 % 0x40 + 0x80 = n₃ := by omega
  have h₄ : v % 0x40 + 0x80 = n₄ := by omega
  rw [encodeChar_four (by omega) (by omega), h₁, h₂, h₃, h₄]
  rfl

end Widths

/-- Bytes that are a text's start with those of its first character. -/
theorem startsText_of_pieces {b : UInt8} {bs : List UInt8} {cs : List Char}
    (h : pieces (b :: bs) = cs.map some) : StartsText (b :: bs) cs := by
  obtain ⟨n, hn, rfl⟩ : ∃ n, n < 256 ∧ b = UInt8.ofNat n :=
    ⟨b.toNat, b.toNat_lt, by rw [UInt8.ofNat_toNat]⟩
  have hleads := leads_lead hn
  generalize hlead : lead (UInt8.ofNat n) = found at hleads
  cases hleads with
  | one hle => exact startsText_one hle h
  | illFormed =>
      simp only [pieces, piecesFrom, step, hlead] at h
      have hmem : none ∈ cs.map some := h ▸ List.mem_cons_self
      obtain ⟨c, -, hc⟩ := List.mem_map.mp hmem
      cases hc
  | two hl hh => exact startsText_two hl hh (pieces_lead hlead ▸ h)
  | three hl hh hlow hhigh hleast hsurrogate =>
      exact startsText_three hl hh hlow hhigh hleast hsurrogate (pieces_lead hlead ▸ h)
  | four hl hh hlow hhigh hleast hgreatest =>
      exact startsText_four hl hh hlow hhigh hleast hgreatest (pieces_lead hlead ▸ h)

theorem encode_of_pieces (bytes : List UInt8) : ∀ cs : List Char,
    pieces bytes = cs.map some → encode cs = bytes := by
  induction h : bytes.length using Nat.strongRecOn generalizing bytes with
  | ind n ih =>
      intro cs hpieces
      cases bytes with
      | nil =>
          obtain rfl := List.map_eq_nil_iff.mp hpieces.symm
          rfl
      | cons b bs =>
          obtain ⟨c, cs, bs', rfl, hbytes, hrest⟩ := startsText_of_pieces hpieces
          have hlen : bs'.length < n := by
            have hsum := congrArg List.length hbytes
            have hpos := String.length_utf8EncodeChar c ▸ c.utf8Size_pos
            rw [List.length_append, h] at hsum
            omega
          rw [encode_cons, ih _ hlen bs' rfl cs hrest, hbytes]

theorem eq_map_some {xs : List (Option Char)} {cs : List Char} (h : xs.mapM id = some cs) :
    xs = cs.map some := by
  induction xs generalizing cs with
  | nil =>
      obtain rfl := Option.some.inj h
      rfl
  | cons x xs ih =>
      rw [List.mapM_cons] at h
      cases x with
      | none => cases h
      | some c =>
          cases hxs : xs.mapM id with
          | none =>
              rw [hxs] at h
              cases h
          | some cs' =>
              rw [hxs] at h
              obtain rfl := Option.some.inj h
              rw [ih hxs, List.map_cons]

/-- **Bytes that decode to a text are the bytes of that text.** -/
theorem decode?_eq_some_iff {bytes : List UInt8} {cs : List Char} :
    decode? bytes = some cs ↔ encode cs = bytes := by
  constructor
  · intro h
    exact encode_of_pieces bytes cs (eq_map_some h)
  · rintro rfl
    exact decode?_encode cs

end ProtoSchema.Utf8
