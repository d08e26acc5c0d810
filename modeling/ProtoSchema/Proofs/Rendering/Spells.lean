/-
A rendered tree scans to its pieces.

`Spells source ls ps` says that lexemes are those of certain pieces: one token for a
token, and for a block the two braces with balanced tokens between them, whose place in
the source has the text of the block.  The text of readable pieces is scanned to lexemes
that spell them.  The induction is on the pieces, for any text in front.
-/
import ProtoSchema.Proofs.Grammar.Braces
import ProtoSchema.Proofs.Rendering.Legal

namespace ProtoSchema

/-- Lexemes of a source that are those of pieces. -/
inductive Spells (source : List Char) : List Lexeme → List Piece → Prop
  | nil : Spells source [] []
  | token {t : Token} {s : Span} {ls : List Lexeme} {ps : List Piece}
      (others : Spells source ls ps) : Spells source (.token t s :: ls) (.token t :: ps)
  | block {text : String} {opening closing : Span} {mid ls : List Lexeme} {ps : List Piece}
      (balanced : Rule.Balanced mid (.token (.mark .rightBrace) closing :: ls))
      (slice : Text.trim (Text.slice source ⟨opening.stop, closing.start⟩) = text.toList)
      (others : Spells source ls ps) :
      Spells source (.token (.mark .leftBrace) opening :: mid) (.block text :: ps)

theorem Rule.Balanced.clean {ls rest : List Lexeme} (h : Rule.Balanced ls rest) :
    Clean rest → Clean ls := by
  induction h with
  | nil ls => exact id
  | plain _ _ _ ih =>
      intro hc
      exact List.forall_mem_cons.mpr ⟨⟨_, _, rfl⟩, ih hc⟩
  | block _ _ ihInner ihOthers =>
      intro hc
      exact List.forall_mem_cons.mpr
        ⟨⟨_, _, rfl⟩, ihInner (List.forall_mem_cons.mpr ⟨⟨_, _, rfl⟩, ihOthers hc⟩)⟩

/-- Lexemes that spell pieces are tokens. -/
theorem Spells.clean {source : List Char} {ls : List Lexeme} {ps : List Piece}
    (h : Spells source ls ps) : Clean ls := by
  induction h with
  | nil => exact fun _ hl => absurd hl List.not_mem_nil
  | token _ ih => exact List.forall_mem_cons.mpr ⟨⟨_, _, rfl⟩, ih⟩
  | block hb _ _ ih =>
      exact List.forall_mem_cons.mpr
        ⟨⟨_, _, rfl⟩, hb.clean (List.forall_mem_cons.mpr ⟨⟨_, _, rfl⟩, ih⟩)⟩

/-! ### Blocks -/

/-- Lexemes that have a token in front. -/
theorem exists_of_tokens {ls : List Lexeme} {t : Token} {tokens : List Token}
    (h : ls.map Lexeme.token? = (t :: tokens).map some) :
    ∃ s rest, ls = .token t s :: rest ∧ rest.map Lexeme.token? = tokens.map some := by
  cases ls with
  | nil => cases h
  | cons l rest =>
      obtain ⟨hl, hrest⟩ := List.cons.inj h
      unfold Lexeme.token? at hl
      split at hl
      · cases hl
        exact ⟨_, rest, rfl, hrest⟩
      · cases hl

/-- Where the same tokens leave no brace unmatched, they close all that is open. -/
theorem closes_of_unmatched {s : Span} {rest : List Lexeme} (tokens : List Token) :
    ∀ (ls ls' : List Lexeme) (opened : List Span),
      ls.map Lexeme.token? = tokens.map some → ls'.map Lexeme.token? = tokens.map some →
      unmatched opened ls = ⟨[], []⟩ →
      Parser.Closes opened.length (ls' ++ .token (.mark .rightBrace) s :: rest) s rest := by
  induction tokens with
  | nil =>
      intro ls ls' opened h h' hu
      obtain rfl : ls = [] := List.map_eq_nil_iff.mp h
      obtain rfl : ls' = [] := List.map_eq_nil_iff.mp h'
      obtain rfl : opened = [] := congrArg Unmatched.opened hu
      exact .nil _
  | cons t tokens ih =>
      intro ls ls' opened h h' hu
      obtain ⟨a, ls, rfl, ht⟩ := exists_of_tokens h
      obtain ⟨b, ls', rfl, ht'⟩ := exists_of_tokens h'
      by_cases hopen : t = .mark .leftBrace
      · subst hopen
        obtain ⟨s', mid, hb, hc⟩ := ih ls ls' (a :: opened) ht ht' hu
        exact .block hb hc
      by_cases hclose : t = .mark .rightBrace
      · subst hclose
        cases opened with
        | nil => cases congrArg Unmatched.stray hu
        | cons x opened => exact ⟨b, _, .nil _, ih ls ls' opened ht ht' hu⟩
      · rw [unmatched_plain (isBrace_token hopen hclose a)] at hu
        exact .plain hopen hclose (ih ls ls' opened ht ht' hu)

/-- A blank at each end of a text is white space around it. -/
theorem trim_blanks (cs : List Char) : Text.trim (' ' :: (cs ++ [' '])) = Text.trim cs := by
  have hb : Text.isBlank ' ' = true := by decide
  have hlead : (' ' :: (cs ++ [' '])).dropWhile Text.isBlank =
      (cs ++ [' ']).dropWhile Text.isBlank := List.dropWhile_cons_of_pos hb
  unfold Text.trim
  rw [hlead, List.dropWhile_append]
  by_cases he : (cs.dropWhile Text.isBlank).isEmpty = true
  · rw [if_pos he, List.isEmpty_iff.mp he, List.dropWhile_cons_of_pos hb]
    rfl
  · rw [if_neg he, List.reverse_append]
    show ((' ' :: (cs.dropWhile Text.isBlank).reverse).dropWhile Text.isBlank).reverse = _
    rw [List.dropWhile_cons_of_pos hb]

/-- The text of a block is what stands between its braces. -/
theorem trim_slice_block (front text rest : List Char) :
    Text.trim (Text.slice (front ++ '\x7b' :: ' ' :: (text ++ ' ' :: '\x7d' :: rest))
      ⟨Utf8.size front + 1, Utf8.size front + 1 + 1 + Utf8.size text + 1⟩) = Text.trim text := by
  have hs := Text.slice_append (front ++ ['\x7b']) (' ' :: (text ++ [' '])) ('\x7d' :: rest)
  have hsource : front ++ ['\x7b'] ++ (' ' :: (text ++ [' ']) ++ '\x7d' :: rest) =
      front ++ '\x7b' :: ' ' :: (text ++ ' ' :: '\x7d' :: rest) := by simp
  have hstart : Utf8.size (front ++ ['\x7b']) = Utf8.size front + 1 := by
    rw [Utf8.size_append]
    rfl
  have hbody : Utf8.size (' ' :: (text ++ [' '])) = 1 + (Utf8.size text + 1) := by
    rw [Utf8.size_cons, Utf8.size_append]
    rfl
  have hstop : Utf8.size front + 1 + (1 + (Utf8.size text + 1)) =
      Utf8.size front + 1 + 1 + Utf8.size text + 1 := by omega
  rw [hsource, hstart, hbody, hstop] at hs
  rw [hs, trim_blanks]

/-- What makes a text one that can stand in braces. -/
theorem of_isBlockText {text : String} (h : isBlockText text = true) :
    Text.trim text.toList = text.toList ∧ (∃ tokens, Plain text.toList tokens) ∧
      unmatched [] (scanFrom 0 0 text.toList) = ⟨[], []⟩ := by
  unfold isBlockText at h
  simp only [Bool.and_eq_true, decide_eq_true_eq] at h
  obtain ⟨⟨⟨ht, hf⟩, hc⟩, hu⟩ := h
  refine ⟨ht, ⟨(scanFrom 0 0 text.toList).filterMap Lexeme.token?, ?_, hf⟩, hu⟩
  generalize scanFrom 0 0 text.toList = ls at hc
  induction ls with
  | nil => rfl
  | cons l ls ih =>
      obtain ⟨hl, hls⟩ := Bool.and_eq_true_iff.mp hc
      obtain ⟨t, s, rfl⟩ : ∃ t s, l = .token t s := by
        unfold Lexeme.isToken at hl
        split at hl
        · exact ⟨_, _, rfl⟩
        · cases hl
      show some t :: ls.map Lexeme.token? = some t :: (ls.filterMap Lexeme.token?).map some
      rw [ih hls]

/-! ### Pieces -/

/-- Whether a piece reads back. -/
def Piece.isReadable : Piece → Bool
  | token t => t.isReadable
  | block text => isBlockText text

theorem Piece.render_cons (p : Piece) (ps : List Piece) :
    render (p :: ps) = p.text ++ ' ' :: render ps := by
  unfold render
  rw [List.flatMap_cons, List.append_assoc]
  rfl

theorem Piece.render_block (text : String) (ps : List Piece) :
    render (.block text :: ps) =
      '\x7b' :: ' ' :: (text.toList ++ ' ' :: '\x7d' :: ' ' :: render ps) := by
  rw [render_cons]
  show '\x7b' :: ' ' :: ((text.toList ++ [' ', '\x7d']) ++ _) = _
  rw [List.append_assoc]
  rfl

/-- **The text of readable pieces scans to lexemes that spell them, whatever is in front.** -/
theorem spells_render (ps : List Piece) :
    ∀ front : List Char, (∀ p ∈ ps, p.isReadable = true) →
      Spells (front ++ Piece.render ps) (scanFrom 0 (Utf8.size front) (Piece.render ps)) ps := by
  induction ps with
  | nil => exact fun _ _ => .nil
  | cons p ps ih =>
      intro front h
      obtain ⟨hp, hps⟩ := List.forall_mem_cons.mp h
      -- What follows a text and a blank spells the other pieces, with both in front.
      have hrest (text : List Char) :
          Spells (front ++ (text ++ ' ' :: Piece.render ps))
            (scanFrom 0 (Utf8.size front + Utf8.size text + 1) (Piece.render ps)) ps := by
        have := ih (front ++ text ++ [' ']) hps
        rw [Utf8.size_append, Utf8.size_append, List.append_assoc, List.append_assoc] at this
        exact this
      cases p with
      | token t =>
          obtain ⟨ls, hscan, hls⟩ := (plain_text hp).scanFrom_eq (Utf8.size front) (Piece.render ps)
          obtain ⟨s, tail, rfl, htail⟩ := exists_of_tokens hls
          obtain rfl : tail = [] := List.map_eq_nil_iff.mp htail
          rw [Piece.render_cons]
          show Spells _ (scanFrom 0 _ (t.text.toList ++ ' ' :: Piece.render ps)) _
          rw [hscan]
          exact .token (hrest t.text.toList)
      | block text =>
          obtain ⟨htrim, ⟨tokens, hplain⟩, hu⟩ := of_isBlockText hp
          obtain ⟨ls, hscan, hls⟩ := hplain.scanFrom_eq (Utf8.size front + 1 + 1)
            ('\x7d' :: ' ' :: Piece.render ps)
          rw [Piece.render_block]
          show Spells _ (.token (.mark .leftBrace) ⟨Utf8.size front, Utf8.size front + 1⟩ ::
            scanFrom 0 (Utf8.size front + 1 + 1) _) _
          rw [hscan]
          show Spells _ (.token (.mark .leftBrace) ⟨Utf8.size front, Utf8.size front + 1⟩ ::
            (ls ++ .token (.mark .rightBrace) ⟨Utf8.size front + 1 + 1 + Utf8.size text.toList + 1, _⟩ ::
              scanFrom 0 (Utf8.size front + 1 + 1 + Utf8.size text.toList + 1 + 1 + 1)
                (Piece.render ps))) _
          refine .block (closes_of_unmatched tokens _ _ [] hplain.scan_eq hls hu) ?_ ?_
          · exact (trim_slice_block front text.toList (' ' :: Piece.render ps)).trans htrim
          · have hr := hrest ('\x7b' :: ' ' :: (text.toList ++ [' ', '\x7d']))
            rw [List.cons_append, List.cons_append, List.append_assoc] at hr
            have htext : Utf8.size ('\x7b' :: ' ' :: (text.toList ++ [' ', '\x7d'])) =
                1 + (1 + (Utf8.size text.toList + 2)) := by
              rw [Utf8.size_cons, Utf8.size_cons, Utf8.size_append]
              rfl
            rw [htext] at hr
            have hsize : Utf8.size front + 1 + 1 + Utf8.size text.toList + 1 + 1 + 1 =
                Utf8.size front + (1 + (1 + (Utf8.size text.toList + 2))) + 1 := by omega
            rw [hsize]
            exact hr

end ProtoSchema
