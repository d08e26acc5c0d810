/-
A text that scans by itself scans the same inside a larger one.

A rendered tree is a row of texts with a blank behind each.  The scanner looks ahead
from a token only to see where it ends, and no token can take a blank into itself, so
what stands behind the blank cannot matter.  Only a comment could: one that the text
leaves open would swallow the rest.  So a text without comments that gives tokens and
nothing else gives the same tokens wherever it stands, if a blank follows.

Offsets are different there, and with them the spans.  Nothing else depends on them.
-/
import ProtoSchema.Token.Scan

namespace ProtoSchema

/-- The token of a lexeme, if it is one. -/
def Lexeme.token? : Lexeme → Option Token
  | token t _ => some t
  | _ => none

/-- Whether no comment starts where the scanner looks; it goes the scanner's way. -/
def commentFreeFrom : (skip offset : Nat) → List Char → Bool
  | _, _, [] => true
  | skip + 1, offset, c :: cs => commentFreeFrom skip (offset + c.utf8Size) cs
  | 0, offset, c :: cs =>
    let item := Item.read offset c cs
    (item.reading ≠ .blank || isSpace c) &&
      commentFreeFrom (item.width - 1) (offset + c.utf8Size) cs

/-- A text without comments that gives certain tokens and nothing else. -/
structure Plain (text : List Char) (tokens : List Token) : Prop where
  scan_eq : (scanFrom 0 0 text).map Lexeme.token? = tokens.map some
  commentFree : commentFreeFrom 0 0 text = true

/-! ### Characters in a row -/

theorem takeWhile_blank {p : Char → Bool} (hp : p ' ' = false) (cs rest : List Char) :
    (cs ++ ' ' :: rest).takeWhile p = cs.takeWhile p := by
  induction cs with
  | nil => simp [hp]
  | cons c cs ih =>
      rw [List.cons_append, List.takeWhile_cons, List.takeWhile_cons, ih]

theorem dropWhile_blank {p : Char → Bool} (hp : p ' ' = false) (cs rest : List Char) :
    (cs ++ ' ' :: rest).dropWhile p = cs.dropWhile p ++ ' ' :: rest := by
  induction cs with
  | nil => simp [hp]
  | cons c cs ih =>
      rw [List.cons_append, List.dropWhile_cons, List.dropWhile_cons, ih]
      by_cases h : p c = true
      · rw [if_pos h, if_pos h]
      · rw [if_neg h, if_neg h, List.cons_append]

theorem take_takeWhile_blank {p : Char → Bool} (hp : p ' ' = false) (n : Nat)
    (cs rest : List Char) :
    ((cs ++ ' ' :: rest).take n).takeWhile p = (cs.take n).takeWhile p := by
  induction cs generalizing n with
  | nil =>
      cases n with
      | zero => rfl
      | succ n => simp [hp]
  | cons c cs ih =>
      cases n with
      | zero => rfl
      | succ n =>
          rw [List.cons_append, List.take_succ_cons, List.take_succ_cons, List.takeWhile_cons,
            List.takeWhile_cons, ih]

theorem length_takeWhile_add (p : Char → Bool) (cs : List Char) :
    (cs.takeWhile p).length + (cs.dropWhile p).length = cs.length := by
  rw [← List.length_append, List.takeWhile_append_dropWhile]

/-! ### Numerals -/

theorem exponentPart?_blank (cs rest : List Char) :
    exponentPart? (cs ++ ' ' :: rest) = exponentPart? cs := by
  cases cs with
  | nil => rfl
  | cons e cs =>
      simp only [List.cons_append, exponentPart?]
      by_cases he : e = 'e' ∨ e = 'E'
      · rw [if_pos he, if_pos he]
        cases cs with
        | nil => rfl
        | cons s cs =>
            by_cases hp : s = '+'
            · subst hp
              simp only [List.cons_append, takeWhile_blank (p := Char.isDigit) rfl]
            by_cases hm : s = '-'
            · subst hm
              simp only [List.cons_append, takeWhile_blank (p := Char.isDigit) rfl]
            · have h := takeWhile_blank (p := Char.isDigit) rfl (s :: cs) rest
              rw [List.cons_append] at h ⊢
              simp [hp, hm, h]
      · rw [if_neg he, if_neg he]

theorem exponentPart?_length {cs : List Char} {e : Int} {width : Nat}
    (h : exponentPart? cs = some (e, width)) : width ≤ cs.length := by
  cases cs with
  | nil => cases h
  | cons c cs =>
      simp only [exponentPart?] at h
      split at h
      · split at h
        · cases h
        · rename_i heq hne
          cases h
          split
          · rename_i cs'
            have := length_takeWhile_add Char.isDigit cs'
            simp only [List.length_cons]
            omega
          · rename_i cs'
            have := length_takeWhile_add Char.isDigit cs'
            simp only [List.length_cons]
            omega
          · have := length_takeWhile_add Char.isDigit cs
            simp only [List.length_cons]
            omega
      · cases h

theorem hexPart?_blank (cs rest : List Char) : hexPart? (cs ++ ' ' :: rest) = hexPart? cs := by
  cases cs with
  | nil => rfl
  | cons x cs => simp only [List.cons_append, hexPart?, takeWhile_blank (p := isHexDigit) rfl]

theorem hexPart?_length {cs ds : List Char} (h : hexPart? cs = some ds) :
    ds.length + 1 ≤ cs.length := by
  cases cs with
  | nil => cases h
  | cons x cs =>
      simp only [hexPart?] at h
      split at h
      · split at h
        · cases h
        · cases h
          have := length_takeWhile_add isHexDigit cs
          simp only [List.length_cons]
          omega
      · cases h

theorem Numeral.read_blank (cs rest : List Char) :
    Numeral.read (cs ++ ' ' :: rest) = Numeral.read cs := by
  simp only [Numeral.read, takeWhile_blank (p := Char.isDigit) rfl,
    dropWhile_blank (p := Char.isDigit) rfl]
  cases cs.dropWhile Char.isDigit with
  | nil => rfl
  | cons d ds =>
      rw [List.cons_append]
      by_cases hd : d = '.'
      · subst hd
        simp only [takeWhile_blank (p := Char.isDigit) rfl, dropWhile_blank (p := Char.isDigit) rfl,
          exponentPart?_blank]
      · have he := exponentPart?_blank (d :: ds) rest
        have hx := hexPart?_blank (d :: ds) rest
        rw [List.cons_append] at he hx
        simp [hd, he, hx]

theorem Numeral.read_length (cs : List Char) : (Numeral.read cs).2 ≤ cs.length := by
  have hl := length_takeWhile_add Char.isDigit cs
  unfold Numeral.read
  dsimp only
  split
  · rename_i rest heq
    have hr := length_takeWhile_add Char.isDigit rest
    rw [heq, List.length_cons] at hl
    cases he : exponentPart? (rest.dropWhile Char.isDigit) with
    | none =>
        simp only [Option.getD_none]
        omega
    | some p =>
        obtain ⟨e, width⟩ := p
        have := exponentPart?_length he
        simp only [Option.getD_some]
        omega
  · rename_i rest hne
    split
    · rename_i e width he
      have := exponentPart?_length he
      dsimp only
      omega
    · split
      · rename_i hz
        rw [hz] at hl
        split
        · rename_i ds hx
          have := hexPart?_length hx
          simp only [List.length_cons, List.length_nil] at hl ⊢
          omega
        · simp only [List.length_cons, List.length_nil] at hl ⊢
          omega
      · dsimp only
        omega

/-! ### String literals -/

theorem QuotedPart.readCodePoint_blank (n : Nat) (cs rest : List Char)
    (h : (readCodePoint n cs).1 ≠ .invalidEscape) :
    readCodePoint n (cs ++ ' ' :: rest) = readCodePoint n cs := by
  unfold readCodePoint at h ⊢
  dsimp only at h ⊢
  by_cases hn : n ≤ cs.length
  · rw [List.take_append_of_le_length hn]
  · rw [if_neg] at h
    · exact absurd rfl h
    · intro hl
      rw [List.length_take] at hl
      omega

theorem QuotedPart.readEscape_blank (cs rest : List Char)
    (h : (readEscape cs).1 ≠ .invalidEscape) :
    readEscape (cs ++ ' ' :: rest) = readEscape cs := by
  cases cs with
  | nil => exact absurd rfl h
  | cons c cs =>
      have h8 := take_takeWhile_blank (p := isOctalDigit) rfl 3 (c :: cs) rest
      rw [List.cons_append] at h8 ⊢
      unfold readEscape at h ⊢
      dsimp only at h ⊢
      rw [take_takeWhile_blank (p := isHexDigit) rfl, h8]
      by_cases hx : c = 'x' ∨ c = 'X'
      · rw [if_pos hx, if_pos hx]
      by_cases ho : isOctalDigit c = true
      · rw [if_neg hx, if_neg hx, if_pos ho, if_pos ho]
      by_cases hu : c = 'u'
      · rw [if_neg hx, if_neg ho, if_pos hu] at h
        rw [if_neg hx, if_neg hx, if_neg ho, if_neg ho, if_pos hu, if_pos hu,
          readCodePoint_blank 4 cs rest h]
      by_cases hv : c = 'U'
      · rw [if_neg hx, if_neg ho, if_neg hu, if_pos hv] at h
        rw [if_neg hx, if_neg hx, if_neg ho, if_neg ho, if_neg hu, if_neg hu, if_pos hv, if_pos hv,
          readCodePoint_blank 8 cs rest h]
      · rw [if_neg hx, if_neg hx, if_neg ho, if_neg ho, if_neg hu, if_neg hu, if_neg hv, if_neg hv]

theorem QuotedPart.read_blank (c : Char) (cs rest : List Char)
    (h : (read c cs).1 ≠ .invalidEscape) : read c (cs ++ ' ' :: rest) = read c cs := by
  unfold read at h ⊢
  by_cases hb : c = '\\'
  · rw [if_pos hb] at h
    rw [if_pos hb, if_pos hb, readEscape_blank cs rest h]
  · rw [if_neg hb, if_neg hb]

theorem Quoted.faults_addFault (fault : QuotedFault) (q : Quoted) :
    (q.addFault fault).faults ≠ [] := by
  unfold addFault
  split
  · split <;> simp
  · simp

/-- A literal that is complete and faultless ends where it ends in a longer text. -/
theorem Quoted.readFrom_blank (quote : Char) (rest : List Char) (cs : List Char) :
    ∀ (skip offset offset' : Nat), (readFrom quote skip offset cs).faults = [] →
      (readFrom quote skip offset cs).cutAt = none →
      readFrom quote skip offset' (cs ++ ' ' :: rest) = readFrom quote skip offset cs ∧
        (readFrom quote skip offset cs).width ≤ cs.length := by
  induction cs with
  | nil =>
      intro skip offset offset' _ hc
      unfold readFrom at hc
      exact absurd hc (by simp)
  | cons c cs ih =>
      intro skip offset offset' hf hc
      cases skip with
      | succ skip =>
          obtain ⟨heq, hw⟩ := ih skip (offset + c.utf8Size) (offset' + c.utf8Size) hf hc
          constructor
          · show (readFrom quote skip (offset' + c.utf8Size) (cs ++ ' ' :: rest)).widen = _
            rw [heq]
            rfl
          · exact Nat.succ_le_succ hw
      | zero =>
          have hread : (QuotedPart.read c cs).1 ≠ .invalidEscape →
              QuotedPart.read c (cs ++ ' ' :: rest) = QuotedPart.read c cs :=
            QuotedPart.read_blank c cs rest
          rw [List.cons_append]
          unfold readFrom at hf hc ⊢
          generalize QuotedPart.read c cs = r at hf hc hread ⊢
          obtain ⟨part, width⟩ := r
          dsimp only at hf hc hread ⊢
          -- A part that is invalid would leave a fault, and a line feed would cut the literal.
          cases part with
          | bytes bs =>
              rw [hread (by simp)]
              obtain ⟨heq, hw⟩ := ih (width - 1) _ (offset' + c.utf8Size) hf hc
              dsimp only
              rw [heq]
              exact ⟨rfl, Nat.succ_le_succ hw⟩
          | quote q =>
              rw [hread (by simp)]
              dsimp only at hf hc ⊢
              by_cases hq : q = quote
              · rw [if_pos hq, if_pos hq]
                exact ⟨rfl, by simp⟩
              · rw [if_neg hq] at hf hc
                obtain ⟨heq, hw⟩ := ih (width - 1) _ (offset' + c.utf8Size) hf hc
                rw [if_neg hq, if_neg hq, heq]
                exact ⟨rfl, Nat.succ_le_succ hw⟩
          | lineFeed => exact absurd hc (by simp)
          | invalidEscape => exact absurd hf (faults_addFault _ _)
          | invalidCharacter => exact absurd hf (faults_addFault _ _)

/-! ### Items -/

namespace Item

theorem integerNotes_blank {offset width : Nat} {cs : List Char} {value? : Option UInt64}
    (h : integerNotes offset width cs value? = []) (offset' : Nat) (rest : List Char) :
    integerNotes offset' width (cs ++ ' ' :: rest) value? = [] := by
  unfold integerNotes at h ⊢
  obtain ⟨hw, hv⟩ := List.append_eq_nil_iff.mp h
  refine List.append_eq_nil_iff.mpr ⟨?_, ?_⟩
  · cases cs with
    | nil => rfl
    | cons c cs =>
        dsimp only at hw
        split at hw
        · cases hw
        · rename_i hc
          exact if_neg hc
  · split at hv
    · cases hv
    · rename_i hs
      exact if_neg hs

theorem readNumeral_blank {offset : Nat} {cs : List Char} {t : Token} {width : Nat}
    (h : readNumeral offset cs = ⟨.token t, width, []⟩) (offset' : Nat) (rest : List Char) :
    readNumeral offset' (cs ++ ' ' :: rest) = ⟨.token t, width, []⟩ ∧ width ≤ cs.length := by
  have hl := Numeral.read_length cs
  unfold readNumeral at h ⊢
  rw [Numeral.read_blank]
  generalize Numeral.read cs = r at h hl ⊢
  obtain ⟨numeral, w⟩ := r
  cases numeral with
  | float value =>
      obtain ⟨ht, rfl, -⟩ := Item.mk.inj h
      exact ⟨by rw [← ht], hl⟩
  | zero =>
      obtain ⟨ht, rfl, -⟩ := Item.mk.inj h
      exact ⟨by rw [← ht], hl⟩
  | integer radix ds =>
      obtain ⟨ht, rfl, hn⟩ := Item.mk.inj h
      refine ⟨?_, hl⟩
      dsimp only
      rw [List.drop_append_of_le_length hl, integerNotes_blank hn offset' rest, ← ht]

/-- **What is a token with nothing to report is that token wherever a blank follows.** -/
theorem read_blank {offset : Nat} {c : Char} {cs : List Char} {t : Token} {width : Nat}
    (h : read offset c cs = ⟨.token t, width, []⟩) (offset' : Nat) (rest : List Char) :
    read offset' c (cs ++ ' ' :: rest) = ⟨.token t, width, []⟩ ∧ width ≤ (c :: cs).length := by
  have hd : (cs ++ ' ' :: rest).head?.any Char.isDigit = cs.head?.any Char.isDigit := by
    cases cs <;> rfl
  unfold read at h ⊢
  rw [takeWhile_blank (p := isWordPart) rfl, hd]
  by_cases h1 : isSpace c = true
  · rw [if_pos h1] at h
    cases h
  rw [if_neg h1] at h ⊢
  by_cases h2 : isWordStart c = true
  · rw [if_pos h2] at h ⊢
    obtain ⟨ht, rfl, -⟩ := Item.mk.inj h
    have := length_takeWhile_add isWordPart cs
    refine ⟨by rw [← ht], ?_⟩
    simp only [List.length_cons]
    omega
  rw [if_neg h2] at h ⊢
  by_cases h3 : (c.isDigit || (c = '.' && cs.head?.any Char.isDigit)) = true
  · rw [if_pos h3] at h ⊢
    exact readNumeral_blank h offset' rest
  rw [if_neg h3] at h ⊢
  by_cases h4 : (c = '\'' || c = '"') = true
  · rw [if_pos h4] at h ⊢
    obtain ⟨ht, hw, hn⟩ := Item.mk.inj h
    obtain ⟨hf, hc⟩ := List.append_eq_nil_iff.mp hn
    have hcut : (Quoted.read c (offset + 1) cs).cutAt = none := by
      cases hq : (Quoted.read c (offset + 1) cs).cutAt with
      | none => rfl
      | some stop =>
          rw [hq] at hc
          cases hc
    obtain ⟨heq, hlen⟩ := Quoted.readFrom_blank c rest cs 0 (offset + 1) (offset' + 1)
      (List.map_eq_nil_iff.mp hf) hcut
    have heq' : Quoted.read c (offset' + 1) (cs ++ ' ' :: rest) = Quoted.read c (offset + 1) cs := heq
    have hn' : (Quoted.read c (offset + 1) cs).diagnostics offset' = [] := by
      unfold Quoted.diagnostics
      rw [hcut, List.map_eq_nil_iff.mp hf]
      rfl
    dsimp only
    rw [heq', hn', ht, ← hw]
    refine ⟨rfl, ?_⟩
    rw [List.length_cons, Nat.add_comm]
    exact Nat.succ_le_succ hlen
  rw [if_neg h4] at h ⊢
  -- A slash begins a comment or nothing; a comment is no token, and would go on into the blank.
  by_cases h5 : c = '/'
  · rw [if_pos h5] at h
    exfalso
    unfold readSlash at h
    split at h
    · cases h
    · split at h <;> cases h
    · cases h
  rw [if_neg h5] at h ⊢
  split at h
  · rename_i p hp
    obtain ⟨ht, rfl, -⟩ := Item.mk.inj h
    exact ⟨by rw [← ht], by simp⟩
  · cases h

/-- What contributes tokens only is blank, or a token with nothing to report. -/
theorem lexemes_tokens {item : Item} {offset : Nat} {c : Char} {cs : List Char}
    {ts : List (Option Token)} {tokens : List Token}
    (h : (item.lexemes offset c cs).map Lexeme.token? ++ ts = tokens.map some) :
    (item.reading = .blank ∧ item.notes = [] ∧ ts = tokens.map some) ∨
    ∃ t tail, item = ⟨.token t, item.width, []⟩ ∧ tokens = t :: tail ∧ ts = tail.map some := by
  obtain ⟨reading, width, notes⟩ := item
  cases notes with
  | cons d ds =>
      cases tokens with
      | nil => cases h
      | cons t tail => cases (List.cons.inj h).1
  | nil =>
      cases reading with
      | blank => exact Or.inl ⟨rfl, rfl, h⟩
      | illegal =>
          cases tokens with
          | nil => cases h
          | cons t tail => cases (List.cons.inj h).1
      | token t =>
          cases tokens with
          | nil => cases h
          | cons u tail =>
              obtain ⟨hu, htail⟩ := List.cons.inj h
              cases hu
              exact Or.inr ⟨t, tail, rfl, rfl, htail⟩

end Item

/-! ### Texts -/

theorem scanFrom_blank (rest : List Char) (text : List Char) :
    ∀ (skip offset offset' : Nat) (tokens : List Token), skip ≤ text.length →
      (scanFrom skip offset text).map Lexeme.token? = tokens.map some →
      commentFreeFrom skip offset text = true →
      ∃ ls, scanFrom skip offset' (text ++ ' ' :: rest) =
          ls ++ scanFrom 0 (offset' + Utf8.size text) (' ' :: rest) ∧
        ls.map Lexeme.token? = tokens.map some := by
  induction text with
  | nil =>
      intro skip offset offset' tokens hs ht _
      obtain rfl : skip = 0 := Nat.le_zero.mp hs
      exact ⟨[], rfl, ht⟩
  | cons c cs ih =>
      intro skip offset offset' tokens hs ht hf
      have hsize : offset' + Utf8.size (c :: cs) = offset' + c.utf8Size + Utf8.size cs := by
        rw [Utf8.size_cons, Nat.add_assoc]
      rw [hsize]
      cases skip with
      | succ skip => exact ih skip _ (offset' + c.utf8Size) tokens (Nat.le_of_succ_le_succ hs) ht hf
      | zero =>
          unfold commentFreeFrom at hf
          obtain ⟨hc, hf⟩ := Bool.and_eq_true_iff.mp hf
          have ht' : ((Item.read offset c cs).lexemes offset c cs).map Lexeme.token? ++
              (scanFrom ((Item.read offset c cs).width - 1) (offset + c.utf8Size) cs).map
                Lexeme.token? = tokens.map some := by
            rw [← List.map_append]
            exact ht
          rcases Item.lexemes_tokens ht' with ⟨hr, -, hrest⟩ | ⟨t, tail, hi, rfl, hrest⟩
          · -- Without comments only a space is blank, and it is one in any text.
            have hsp : isSpace c = true := by
              rw [hr] at hc
              simpa using hc
            have hread (o : Nat) (text : List Char) : Item.read o c text = ⟨.blank, 1, []⟩ := by
              unfold Item.read
              exact if_pos hsp
            rw [hread] at hf hrest
            obtain ⟨ls, heq, hls⟩ := ih 0 _ (offset' + c.utf8Size) tokens (Nat.zero_le _) hrest hf
            refine ⟨ls, ?_, hls⟩
            rw [← heq, List.cons_append, scanFrom, hread]
            rfl
          · obtain ⟨hread, hw⟩ := Item.read_blank hi offset' rest
            obtain ⟨ls, heq, hls⟩ := ih _ _ (offset' + c.utf8Size) tail
              (Nat.sub_le_of_le_add hw) hrest hf
            refine ⟨.token t ⟨offset', offset' + Utf8.size
              ((c :: (cs ++ ' ' :: rest)).take (Item.read offset c cs).width)⟩ :: ls, ?_, ?_⟩
            · rw [List.cons_append, List.cons_append, ← heq, scanFrom, hread]
              rfl
            · rw [List.map_cons, hls]
              rfl

/-- **A plain text gives its tokens wherever a blank follows.** -/
theorem Plain.scanFrom_eq {text : List Char} {tokens : List Token} (h : Plain text tokens)
    (offset : Nat) (rest : List Char) :
    ∃ ls, scanFrom 0 offset (text ++ ' ' :: rest) =
        ls ++ scanFrom 0 (offset + Utf8.size text + 1) rest ∧
      ls.map Lexeme.token? = tokens.map some :=
  scanFrom_blank rest text 0 0 offset tokens (Nat.zero_le _) h.scan_eq h.commentFree

end ProtoSchema
