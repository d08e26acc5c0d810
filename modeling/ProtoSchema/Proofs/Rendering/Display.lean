/-
Displayed tokens scan back.

Messages show a token by its text, and the default value of a field of bytes shows a
string by other escapes.  The two forms are written apart from each other, one with two
hexadecimal digits and one with three octal ones, and one scanner has to invert both.
The texts of tokens, joined by single blanks, scan to these tokens and to nothing else,
in whichever form each string is shown.

All but the last text have a blank behind them, so what they scan to is known from the
texts by themselves.  Nothing stands behind the last one, and it does not stand at the
front: that a plain text gives its tokens at any offset is shown first.
-/
import Mathlib.Data.List.Forall2
import ProtoSchema.Proofs.Rendering.Spelling
import ProtoSchema.Proofs.Truncation.Scanning

namespace ProtoSchema

/-! ### A plain text at any offset -/

/-- What is a token with nothing to report is that token at any offset. -/
theorem Item.read_offset {offset : Nat} {c : Char} {cs : List Char} {t : Token} {width : Nat}
    (h : read offset c cs = ⟨.token t, width, []⟩) (offset' : Nat) :
    read offset' c cs = ⟨.token t, width, []⟩ := by
  -- It is that token before a blank, and the blank can be cut off again.
  obtain ⟨hblank, hwidth⟩ := read_blank h offset' []
  have hcut : read offset' c cs = read offset' c (cs ++ [' ']) :=
    read_cut (by rw [hblank]) (by simp [hblank]) (by rw [hblank]; exact hwidth)
  rw [hcut, hblank]

theorem scanFrom_offset (text : List Char) :
    ∀ (skip offset offset' : Nat) (tokens : List Token),
      (scanFrom skip offset text).map Lexeme.token? = tokens.map some →
      commentFreeFrom skip offset text = true →
      (scanFrom skip offset' text).map Lexeme.token? = tokens.map some := by
  induction text with
  | nil => intro skip offset offset' tokens ht _; exact ht
  | cons c cs ih =>
      intro skip offset offset' tokens ht hf
      cases skip with
      | succ skip => exact ih skip _ _ tokens ht hf
      | zero =>
          unfold commentFreeFrom at hf
          obtain ⟨hc, hf⟩ := Bool.and_eq_true_iff.mp hf
          unfold scanFrom at ht ⊢
          rw [List.map_append] at ht ⊢
          rcases Item.lexemes_tokens ht with ⟨hr, -, hrest⟩ | ⟨t, tail, hi, rfl, hrest⟩
          · have hsp : isSpace c = true := by simpa [hr] using hc
            have hread (o : Nat) : Item.read o c cs = ⟨.blank, 1, []⟩ := by
              unfold Item.read
              exact if_pos hsp
            rw [hread] at hf hrest ⊢
            exact ih 0 _ _ tokens hrest hf
          · rw [Item.read_offset hi offset']
            show some t :: _ = some t :: _
            rw [ih _ _ (offset' + c.utf8Size) tail hrest hf]
            rfl

theorem Plain.scanFrom_offset {text : List Char} {tokens : List Token} (h : Plain text tokens)
    (offset : Nat) : (scanFrom 0 offset text).map Lexeme.token? = tokens.map some :=
  ProtoSchema.scanFrom_offset text 0 0 offset tokens h.scan_eq h.commentFree

/-! ### Texts in a row -/

/-- The texts that show a token: its own, and for a string also octal escapes in quotes. -/
inductive Shows : Token → String → Prop
  | text (t : Token) : Shows t t.text
  | octal (bytes : List UInt8) : Shows (.string bytes) ("\"" ++ Text.escapeBytes bytes ++ "\"")

theorem Shows.plain {t : Token} {text : String} (h : Shows t text) (hr : t.isReadable = true) :
    Plain text.toList [t] := by
  cases h with
  | text t => exact plain_text hr
  | octal bytes =>
      have htext : ("\"" ++ Text.escapeBytes bytes ++ "\"").toList =
          '"' :: (bytes.flatMap Text.escapeOctal ++ ['"']) := by
        simp [Text.escapeBytes]
      rw [htext]
      exact plain_escaped escapes_octal bytes

/-- The texts that show tokens scan to them at any offset. -/
theorem scanFrom_shows {tokens : List Token} {texts : List String}
    (hs : List.Forall₂ Shows tokens texts) :
    (∀ t ∈ tokens, t.isReadable = true) → ∀ offset : Nat,
      (scanFrom 0 offset (String.intercalate " " texts).toList).map Lexeme.token? =
        tokens.map some := by
  induction hs with
  | nil => intro _ offset; rfl
  | @cons t text tokens texts hshows hrest ih =>
      intro hr offset
      have hplain : Plain text.toList [t] := hshows.plain (hr t (.head _))
      cases hrest with
      | nil =>
          rw [String.intercalate_singleton]
          exact hplain.scanFrom_offset offset
      | @cons u next us others hu hus =>
          have htext : (String.intercalate " " (text :: next :: others)).toList =
              text.toList ++ ' ' :: (String.intercalate " " (next :: others)).toList := by
            simp
          obtain ⟨ls, hscan, hls⟩ := hplain.scanFrom_eq offset
            (String.intercalate " " (next :: others)).toList
          have htail := ih (fun v hv => hr v (.tail _ hv)) (offset + Utf8.size text.toList + 1)
          rw [htext, hscan, List.map_append, hls, htail]
          rfl

theorem clean_of_tokens {ls : List Lexeme} {tokens : List Token}
    (h : ls.map Lexeme.token? = tokens.map some) : Clean ls := by
  intro l hl
  have hmem : l.token? ∈ tokens.map some := by
    rw [← h]
    exact List.mem_map_of_mem hl
  cases l with
  | token t s => exact ⟨t, s, rfl⟩
  | illegal => simp [Lexeme.token?] at hmem
  | note => simp [Lexeme.token?] at hmem

/--
**Displayed tokens scan back.**  The texts of tokens other than numbers with a point, joined by
single blanks, scan to exactly these tokens and leave nothing to report, and so do texts in
which strings are shown by octal escapes.
-/
theorem scan_shows {tokens : List Token} {texts : List String}
    (hr : ∀ t ∈ tokens, t.isReadable = true) (hs : List.Forall₂ Shows tokens texts) :
    (scan (String.intercalate " " texts).toList).map Lexeme.token? = tokens.map some := by
  have hscan := scanFrom_shows hs hr 0
  have hfront : ∀ cs, (String.intercalate " " texts).toList ≠ '\uFEFF' :: cs := by
    intro cs heq
    rw [heq] at hscan
    exact not_clean_byteOrderMark cs (clean_of_tokens hscan)
  rw [scan_eq_scanFrom hfront, hscan]

/--
Bytes with every kind of escape, in both forms, each before a digit that a longer escape would
take; the largest integer; a keyword; and marks that touch nothing.
-/
theorem scan_shows_escapes :
    (scan (String.intercalate " " ["option", "18446744073709551615", "=",
      "\"\\x00\\xff7\\\"\\'\\\\\\n~\"", "0", "\"\\000\\3777\\\"\\'\\\\\\n~\"", "."]).toList).map
        Lexeme.token? =
      [.ident "option", .int 18446744073709551615, .mark .equals,
        .string [0, 255, 0x37, 0x22, 0x27, 0x5C, 0x0A, 0x7E], .int 0,
        .string [0, 255, 0x37, 0x22, 0x27, 0x5C, 0x0A, 0x7E], .mark .dot].map some :=
  scan_shows (by decide)
    (.cons (.text (.ident "option")) (.cons (.text (.int 18446744073709551615))
      (.cons (.text (.mark .equals))
        (.cons (.text (.string [0, 255, 0x37, 0x22, 0x27, 0x5C, 0x0A, 0x7E]))
          (.cons (.text (.int 0))
            (.cons (.octal [0, 255, 0x37, 0x22, 0x27, 0x5C, 0x0A, 0x7E])
              (.cons (.text (.mark .dot)) .nil)))))))

end ProtoSchema
