/-
A token reads back from its own text.

Tokens have a text for messages, and the text of a token is one way to write it: a word
as it is, an integer in decimal, a string with the escapes of its bytes, a mark by its
character.  Each of them scans to the token that it is the text of.  A word must have
the form of a word for that, and numbers with a point are left out: their text is
rounded.
-/
import Mathlib.Data.List.TakeWhile
import ProtoSchema.Proofs.Rendering.Locality

namespace ProtoSchema

/-! ### One item that takes up a text -/

theorem scanFrom_length (cs : List Char) (offset : Nat) : scanFrom cs.length offset cs = [] := by
  induction cs generalizing offset with
  | nil => rfl
  | cons c cs ih => exact ih _

theorem commentFreeFrom_length (cs : List Char) (offset : Nat) :
    commentFreeFrom cs.length offset cs = true := by
  induction cs generalizing offset with
  | nil => rfl
  | cons c cs ih => exact ih _

theorem Plain.of_read {c : Char} {cs : List Char} {t : Token}
    (h : Item.read 0 c cs = ⟨.token t, cs.length + 1, []⟩) : Plain (c :: cs) [t] where
  scan_eq := by
    unfold scanFrom
    rw [h]
    show Lexeme.token? _ :: (scanFrom cs.length _ cs).map Lexeme.token? = _
    rw [scanFrom_length]
    rfl
  commentFree := by
    unfold commentFreeFrom
    rw [h]
    exact commentFreeFrom_length cs _

/-! ### Words and marks -/

/-- Whether a text has the form of a word. -/
def isWord (text : String) : Bool :=
  match text.toList with
  | [] => false
  | c :: cs => isWordStart c && cs.all isWordPart

theorem isSpace_of_isWordStart {c : Char} (h : isWordStart c = true) : isSpace c = false := by
  by_contra hs
  simp only [Bool.not_eq_false, isSpace, Bool.or_eq_true, decide_eq_true_eq] at hs
  rcases hs with ((((rfl | rfl) | rfl) | rfl) | rfl) | rfl <;> exact absurd h (by decide)

theorem plain_word {word : String} (h : isWord word = true) : Plain word.toList [.ident word] := by
  unfold isWord at h
  split at h
  · cases h
  · rename_i c cs heq
    obtain ⟨hc, hcs⟩ := Bool.and_eq_true_iff.mp h
    have hname : String.ofList (c :: cs) = word := by rw [← heq, String.ofList_toList]
    rw [heq]
    refine Plain.of_read ?_
    unfold Item.read
    rw [isSpace_of_isWordStart hc, if_neg Bool.false_ne_true, if_pos hc,
      List.takeWhile_eq_self_iff.mpr (List.all_eq_true.mp hcs)]
    dsimp only
    rw [hname]
    rfl

theorem plain_mark (p : Punctuation) : Plain p.text.toList [.mark p] := by
  have h : p.text.toList = [p.char] := by cases p <;> rfl
  rw [h]
  refine Plain.of_read ?_
  cases p <;> decide

/-! ### Integers -/

/-- A digit is neither blank nor the start of a word. -/
theorem not_word_of_isDigit {c : Char} (h : c.isDigit = true) :
    isSpace c = false ∧ isWordStart c = false := by
  constructor
  · by_contra hs
    simp only [Bool.not_eq_false, isSpace, Bool.or_eq_true, decide_eq_true_eq] at hs
    rcases hs with ((((rfl | rfl) | rfl) | rfl) | rfl) | rfl <;> exact absurd h (by decide)
  · by_contra hw
    simp only [Char.isDigit, Bool.and_eq_true, decide_eq_true_eq, ge_iff_le,
      UInt32.le_iff_toNat_le] at h
    have h9 : c.val.toNat ≤ 57 := h.2
    simp only [Bool.not_eq_false, isWordStart, Bool.or_eq_true, decide_eq_true_eq] at hw
    rcases hw with hw | rfl
    · rcases Bool.or_eq_true_iff.mp hw with hw | hw
      · have h65 : 65 ≤ c.val.toNat := (of_decide_eq_true hw).1
        omega
      · have h97 : 97 ≤ c.val.toNat := of_decide_eq_true (Bool.and_eq_true_iff.mp hw).1
        omega
    · exact absurd h9 (by decide)

theorem digitValue_of_isDigit {c : Char} (h : c.isDigit = true) :
    digitValue c = c.toNat - 48 := if_pos h

theorem valueOfDigits_toDigits (n : Nat) : valueOfDigits 10 (Nat.toDigits 10 n) = n := by
  have h : ∀ (ds : List Char) (m : Nat), (∀ d ∈ ds, d.isDigit = true) →
      ds.foldl (fun n d => n * 10 + digitValue d) m = Nat.ofDigitChars 10 ds m := by
    intro ds
    induction ds with
    | nil => intro m _; rfl
    | cons d ds ih =>
        intro m hd
        rw [List.foldl_cons, Nat.ofDigitChars_cons, ih _ fun x hx => hd x (.tail _ hx),
          digitValue_of_isDigit (hd d (.head _)), Nat.mul_comm]
        rfl
  rw [valueOfDigits, h _ 0 fun d hd => Nat.isDigit_of_mem_toDigits (by decide) (by decide) hd]
  exact Nat.ofDigitChars_ten_toDigits

/-- The digits of a number that is not zero do not start with a zero. -/
theorem head?_toDigits {n : Nat} (h : 0 < n) : (Nat.toDigits 10 n).head? ≠ some '0' := by
  induction n using Nat.strongRecOn with
  | ind n ih =>
      by_cases hn : n < 10
      · rw [Nat.toDigits_of_lt_base hn]
        have : n = 1 ∨ n = 2 ∨ n = 3 ∨ n = 4 ∨ n = 5 ∨ n = 6 ∨ n = 7 ∨ n = 8 ∨ n = 9 := by omega
        rcases this with rfl | rfl | rfl | rfl | rfl | rfl | rfl | rfl | rfl <;> decide
      · have hq := ih (n / 10) (by omega) (by omega)
        rw [Nat.toDigits_of_base_le (by decide) (by omega), List.head?_append]
        cases hd : (Nat.toDigits 10 (n / 10)).head? with
        | none => exact absurd (List.head?_eq_none_iff.mp hd) Nat.toDigits_ne_nil
        | some d =>
            rw [hd] at hq
            exact hq

theorem isDigitTo_of_isDigit {c : Char} (h : c.isDigit = true) : isDigitTo 10 c = true := by
  have hh : isHexDigit c = true := by
    unfold isHexDigit
    rw [h]
    rfl
  have hv : digitValue c < 10 := by
    rw [digitValue_of_isDigit h]
    simp only [Char.isDigit, Bool.and_eq_true, decide_eq_true_eq] at h
    have h9 : c.toNat ≤ 57 := UInt32.le_iff_toNat_le.mp h.2
    omega
  unfold isDigitTo
  rw [hh, decide_eq_true hv]
  rfl

theorem integerValue?_toDigits (n : UInt64) :
    integerValue? 10 (Nat.toDigits 10 n.toNat) = some n := by
  have hall : (Nat.toDigits 10 n.toNat).all (isDigitTo 10) = true :=
    List.all_eq_true.mpr fun d hd =>
      isDigitTo_of_isDigit (Nat.isDigit_of_mem_toDigits (by decide) (by decide) hd)
  unfold integerValue?
  rw [valueOfDigits_toDigits, if_pos ⟨hall, n.toNat_lt⟩, UInt64.ofNat_toNat]

/-- A number in decimal is an integer numeral, or the zero by itself. -/
theorem read_toDigits (n : UInt64) :
    Item.readNumeral 0 (Nat.toDigits 10 n.toNat) =
      ⟨.token (.int n), (Nat.toDigits 10 n.toNat).length, []⟩ := by
  have hd : ∀ d ∈ Nat.toDigits 10 n.toNat, d.isDigit = true := fun d hd =>
    Nat.isDigit_of_mem_toDigits (by decide) (by decide) hd
  have hread : Numeral.read (Nat.toDigits 10 n.toNat) =
      if Nat.toDigits 10 n.toNat = ['0'] then (.zero, 1)
      else (Numeral.ofDigits (Nat.toDigits 10 n.toNat), (Nat.toDigits 10 n.toNat).length) := by
    unfold Numeral.read
    rw [List.takeWhile_eq_self_iff.mpr hd, List.dropWhile_eq_nil_iff.mpr hd]
    rfl
  by_cases hz : n.toNat = 0
  · obtain rfl : n = 0 := UInt64.toNat_inj.mp hz
    rfl
  have hh := head?_toDigits (Nat.pos_of_ne_zero hz)
  have hv := integerValue?_toDigits n
  generalize Nat.toDigits 10 n.toNat = ds at hread hh hv ⊢
  have hne : ds ≠ ['0'] := by
    rintro rfl
    exact hh rfl
  have hof : Numeral.ofDigits ds = .integer 10 ds := by
    unfold Numeral.ofDigits
    split
    · exact absurd rfl hh
    · exact absurd rfl hh
    · rfl
  rw [if_neg hne, hof] at hread
  unfold Item.readNumeral
  rw [hread]
  dsimp only
  rw [hv, List.drop_length]
  rfl

theorem plain_int (n : UInt64) : Plain (toString n.toNat).toList [.int n] := by
  have hn := read_toDigits n
  have hd : ∀ d ∈ Nat.toDigits 10 n.toNat, d.isDigit = true := fun d hd =>
    Nat.isDigit_of_mem_toDigits (by decide) (by decide) hd
  have hne : Nat.toDigits 10 n.toNat ≠ [] := Nat.toDigits_ne_nil
  rw [Nat.toString_eq_ofList_toDigits, String.toList_ofList]
  generalize Nat.toDigits 10 n.toNat = ds at hn hd hne ⊢
  cases ds with
  | nil => exact absurd rfl hne
  | cons c cs =>
      have hc : c.isDigit = true := hd c (.head _)
      obtain ⟨hs, hw⟩ := not_word_of_isDigit hc
      refine Plain.of_read ?_
      unfold Item.read
      rw [hs, hw, hc]
      exact hn

/-! ### Strings -/

theorem isHexDigit_hexDigit : ∀ n < 16, isHexDigit (Text.hexDigit n) = true := by decide

theorem digitValue_hexDigit : ∀ n < 16, digitValue (Text.hexDigit n) = n := by decide

/-- The printable characters that need no escape, by their bytes. -/
theorem read_printable : ∀ n < 127, (32 ≤ n ∧ n ≠ 0x22 ∧ n ≠ 0x27 ∧ n ≠ 0x5C) →
    QuotedPart.read (Char.ofNat n) [] = (.bytes [UInt8.ofNat n], 1) := by
  decide

theorem read_printable_append {n : Nat} (rest : List Char) (hl : 32 ≤ n) (hh : n < 127)
    (h22 : n ≠ 0x22) (h27 : n ≠ 0x27) (h5C : n ≠ 0x5C) :
    QuotedPart.read (Char.ofNat n) rest = (.bytes [UInt8.ofNat n], 1) := by
  have h := read_printable n hh ⟨hl, h22, h27, h5C⟩
  have hb : Char.ofNat n ≠ '\\' := by
    intro heq
    rw [heq] at h
    cases congrArg Prod.fst h
  unfold QuotedPart.read at h ⊢
  rw [if_neg hb] at h ⊢
  exact h

/-- A way to write bytes within a literal, each as one part that stands for it. -/
def Escapes (escape : UInt8 → List Char) : Prop :=
  ∀ (b : UInt8) (rest : List Char), ∃ c cs, escape b = c :: cs ∧
    QuotedPart.read c (cs ++ rest) = (.bytes [b], cs.length + 1)

/-- The escapes that both forms share, and the bytes that stand for themselves. -/
theorem read_escapeCommon {b : UInt8} {es : List Char} (h : Text.escapeCommon? b = some es)
    (rest : List Char) : ∃ c cs, es = c :: cs ∧
      QuotedPart.read c (cs ++ rest) = (.bytes [b], cs.length + 1) := by
  unfold Text.escapeCommon? at h
  split at h
  · rename_i h09
    exact ⟨_, _, (Option.some.inj h).symm, by rw [h09]; rfl⟩
  split at h
  · rename_i h0A
    exact ⟨_, _, (Option.some.inj h).symm, by rw [h0A]; rfl⟩
  split at h
  · rename_i h0D
    exact ⟨_, _, (Option.some.inj h).symm, by rw [h0D]; rfl⟩
  split at h
  · rename_i h22
    exact ⟨_, _, (Option.some.inj h).symm, by rw [h22]; rfl⟩
  rename_i h22
  split at h
  · rename_i h27
    exact ⟨_, _, (Option.some.inj h).symm, by rw [h27]; rfl⟩
  rename_i h27
  split at h
  · rename_i h5C
    exact ⟨_, _, (Option.some.inj h).symm, by rw [h5C]; rfl⟩
  rename_i h5C
  split at h
  · rename_i hp
    refine ⟨_, _, (Option.some.inj h).symm, ?_⟩
    have hl : 32 ≤ b.toNat := UInt8.le_iff_toNat_le.mp hp.1
    have hh : b.toNat ≤ 126 := UInt8.le_iff_toNat_le.mp hp.2
    rw [List.nil_append, read_printable_append rest hl (by omega)
      (fun h => h22 (UInt8.toNat_inj.mp h)) (fun h => h27 (UInt8.toNat_inj.mp h))
      (fun h => h5C (UInt8.toNat_inj.mp h)), UInt8.ofNat_toNat]
    rfl
  · cases h

/-- Other bytes can be written in hexadecimal. -/
theorem escapes_hex : Escapes Text.escapeHex := by
  intro b rest
  unfold Text.escapeHex
  cases hcommon : Text.escapeCommon? b with
  | some es => exact read_escapeCommon hcommon rest
  | none =>
      have hb := b.toNat_lt
      have hx : isHexDigit (Text.hexDigit (b.toNat / 16)) = true :=
        isHexDigit_hexDigit _ (by omega)
      have hy : isHexDigit (Text.hexDigit (b.toNat % 16)) = true :=
        isHexDigit_hexDigit _ (by omega)
      have hv : valueOfDigits 16 [Text.hexDigit (b.toNat / 16), Text.hexDigit (b.toNat % 16)] =
          b.toNat := by
        show (0 * 16 + digitValue _) * 16 + digitValue _ = _
        rw [digitValue_hexDigit _ (by omega), digitValue_hexDigit _ (by omega)]
        omega
      have ht : (([Text.hexDigit (b.toNat / 16), Text.hexDigit (b.toNat % 16)] ++ rest).take
          2).takeWhile isHexDigit =
            [Text.hexDigit (b.toNat / 16), Text.hexDigit (b.toNat % 16)] := by
        show List.takeWhile isHexDigit [_, _] = _
        rw [List.takeWhile_cons, if_pos hx, List.takeWhile_cons, if_pos hy]
        rfl
      refine ⟨_, _, rfl, ?_⟩
      show QuotedPart.readEscape ('x' :: ([_, _] ++ rest)) = _
      unfold QuotedPart.readEscape
      dsimp only
      rw [if_pos (Or.inl rfl), ht]
      dsimp only
      rw [hv, UInt8.ofNat_toNat]
      rfl

theorem isOctalDigit_hexDigit : ∀ n < 8, isOctalDigit (Text.hexDigit n) = true := by decide

theorem hexDigit_ne_x : ∀ n < 8, ¬(Text.hexDigit n = 'x' ∨ Text.hexDigit n = 'X') := by decide

/-- They can be written in octal as well, with three digits so that none behind them joins in. -/
theorem escapes_octal : Escapes Text.escapeOctal := by
  intro b rest
  unfold Text.escapeOctal
  cases hcommon : Text.escapeCommon? b with
  | some es => exact read_escapeCommon hcommon rest
  | none =>
      have hb := b.toNat_lt
      have hx : isOctalDigit (Text.hexDigit (b.toNat / 64)) = true :=
        isOctalDigit_hexDigit _ (by omega)
      have hy : isOctalDigit (Text.hexDigit (b.toNat / 8 % 8)) = true :=
        isOctalDigit_hexDigit _ (by omega)
      have hz : isOctalDigit (Text.hexDigit (b.toNat % 8)) = true :=
        isOctalDigit_hexDigit _ (by omega)
      have hv : valueOfDigits 8 [Text.hexDigit (b.toNat / 64), Text.hexDigit (b.toNat / 8 % 8),
          Text.hexDigit (b.toNat % 8)] = b.toNat := by
        show ((0 * 8 + digitValue _) * 8 + digitValue _) * 8 + digitValue _ = _
        rw [digitValue_hexDigit _ (by omega), digitValue_hexDigit _ (by omega),
          digitValue_hexDigit _ (by omega)]
        omega
      -- Three digits are the most that an escape takes, whatever follows them.
      have ht : ((Text.hexDigit (b.toNat / 64) :: ([Text.hexDigit (b.toNat / 8 % 8),
          Text.hexDigit (b.toNat % 8)] ++ rest)).take 3).takeWhile isOctalDigit =
            [Text.hexDigit (b.toNat / 64), Text.hexDigit (b.toNat / 8 % 8),
              Text.hexDigit (b.toNat % 8)] := by
        show List.takeWhile isOctalDigit [_, _, _] = _
        rw [List.takeWhile_cons, if_pos hx, List.takeWhile_cons, if_pos hy, List.takeWhile_cons,
          if_pos hz]
        rfl
      refine ⟨_, _, rfl, ?_⟩
      show QuotedPart.readEscape (Text.hexDigit (b.toNat / 64) :: ([_, _] ++ rest)) = _
      unfold QuotedPart.readEscape
      dsimp only
      rw [if_neg (hexDigit_ne_x _ (by omega)), if_pos hx, ht, hv, if_pos hb, UInt8.ofNat_toNat]
      rfl

theorem Quoted.readFrom_skip (quote : Char) (cs rest : List Char) (offset : Nat) :
    (readFrom quote cs.length offset (cs ++ rest)) =
      { readFrom quote 0 (offset + Utf8.size cs) rest with
        width := (readFrom quote 0 (offset + Utf8.size cs) rest).width + cs.length } := by
  induction cs generalizing offset with
  | nil => rfl
  | cons c cs ih =>
      show (readFrom quote cs.length (offset + c.utf8Size) (cs ++ rest)).widen = _
      rw [ih, Utf8.size_cons, ← Nat.add_assoc]
      rfl

/-- The literal behind an opening quote, when its bytes are written as parts. -/
theorem Quoted.readFrom_escaped {escape : UInt8 → List Char} (h : Escapes escape)
    (bytes : List UInt8) (offset : Nat) :
    readFrom '"' 0 offset (bytes.flatMap escape ++ ['"']) =
      ⟨bytes, [], none, (bytes.flatMap escape).length + 1⟩ := by
  induction bytes generalizing offset with
  | nil => rfl
  | cons b bytes ih =>
      obtain ⟨c, cs, he, hread⟩ := h b (bytes.flatMap escape ++ ['"'])
      rw [List.flatMap_cons, he, List.append_assoc, List.cons_append]
      unfold readFrom
      rw [hread]
      show ((readFrom '"' cs.length _ _).addBytes [b]).widen = _
      rw [readFrom_skip, ih]
      simp only [addBytes, widen, List.length_append, List.length_cons, List.singleton_append]
      congr 1
      omega

/-- Bytes that are written as parts between quotes are one literal, which stands for them. -/
theorem plain_escaped {escape : UInt8 → List Char} (h : Escapes escape) (bytes : List UInt8) :
    Plain ('"' :: (bytes.flatMap escape ++ ['"'])) [.string bytes] := by
  refine Plain.of_read ?_
  have hq : Quoted.read '"' (0 + 1) (bytes.flatMap escape ++ ['"']) =
      ⟨bytes, [], none, (bytes.flatMap escape).length + 1⟩ :=
    Quoted.readFrom_escaped h bytes (0 + 1)
  show Item.mk (.token (.string (Quoted.read '"' (0 + 1) _).bytes))
    (1 + (Quoted.read '"' (0 + 1) _).width) ((Quoted.read '"' (0 + 1) _).diagnostics 0) = _
  rw [hq, Nat.add_comm 1, List.length_append]
  rfl

theorem plain_string (bytes : List UInt8) : Plain (Text.quote bytes).toList [.string bytes] := by
  unfold Text.quote
  rw [String.toList_ofList, List.cons_append]
  exact plain_escaped escapes_hex bytes

/-! ### Tokens -/

/-- Whether a token can be read back from its text. -/
def Token.isReadable : Token → Bool
  | ident name => isWord name
  | float _ => false
  | int _ | string _ | mark _ => true

/-- **A token reads back from its own text.** -/
theorem plain_text {t : Token} (h : t.isReadable = true) : Plain t.text.toList [t] := by
  cases t with
  | ident name => exact plain_word h
  | int value => exact plain_int value
  | float value => cases h
  | string bytes => exact plain_string bytes
  | mark p => exact plain_mark p

end ProtoSchema
