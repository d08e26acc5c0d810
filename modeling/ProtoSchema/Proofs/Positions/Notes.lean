/-
Where the scanner's remarks point.

The scanner says where something is wrong by offsets that it works out itself: from the
number of characters of a numeral, or from the offset at which a literal is read.  A
character may take up to four bytes, so these are places of the source only because of
what is counted: the characters of integers and of words take one byte each, and a
literal is read from one character to the next (`fits_of_note_mem_scan`).

A word stands in the source as the scan has it (`slice_of_ident_mem_scan`).
-/
import ProtoSchema.Proofs.Rendering.Locality
import ProtoSchema.Proofs.Scanning.Places

namespace ProtoSchema

/-- All places that a diagnostic names are stretches of the source. -/
structure Diagnostic.Fits (source : List Char) (d : Diagnostic) : Prop where
  span : d.span.Fits source
  labels : ∀ l ∈ d.labels, l.2.Fits source

namespace Diagnostic.Fits

variable {source : List Char} {d : Diagnostic}

/-- A diagnostic with one label, at its own place. -/
theorem one {text : String} (h : d.labels = [(text, d.span)]) (hs : d.span.Fits source) :
    d.Fits source := by
  refine ⟨hs, fun l hl => ?_⟩
  rw [h] at hl
  obtain rfl := List.mem_singleton.mp hl
  exact hs

/-- A diagnostic with two labels, one of them at its own place. -/
theorem two {first second : String × Span} (h : d.labels = [first, second])
    (hs : d.span.Fits source) (h₁ : first.2.Fits source) (h₂ : second.2.Fits source) :
    d.Fits source := by
  refine ⟨hs, fun l hl => ?_⟩
  rw [h] at hl
  rcases List.mem_cons.mp hl with rfl | hl
  · exact h₁
  · obtain rfl := List.mem_singleton.mp hl
    exact h₂

end Diagnostic.Fits

/-! ### Characters of one byte -/

/-- Characters that take one byte each. -/
def Narrow (cs : List Char) : Prop := ∀ c ∈ cs, c.utf8Size = 1

theorem Narrow.size {cs : List Char} (h : Narrow cs) : Utf8.size cs = cs.length := by
  induction cs with
  | nil => rfl
  | cons c cs ih =>
      rw [Utf8.size_cons, h c (.head _), ih fun d hd => h d (.tail _ hd), List.length_cons,
        Nat.add_comm]

theorem Narrow.append {as bs : List Char} (ha : Narrow as) (hb : Narrow bs) :
    Narrow (as ++ bs) := by
  intro c hc
  rcases List.mem_append.mp hc with hc | hc
  · exact ha c hc
  · exact hb c hc

theorem utf8Size_of_le {c : Char} (h : c.toNat ≤ 127) : c.utf8Size = 1 := by
  have hv : c.val ≤ 127 := UInt32.le_iff_toNat_le.mpr h
  exact if_pos hv

theorem narrow_takeWhile {p : Char → Bool} (hp : ∀ c, p c = true → c.toNat ≤ 127)
    (cs : List Char) : Narrow (cs.takeWhile p) := by
  intro c hc
  exact utf8Size_of_le (hp c (List.all_eq_true.mp List.all_takeWhile c hc))

theorem toNat_le_of_isDigit {c : Char} (h : c.isDigit = true) : c.toNat ≤ 127 := by
  simp only [Char.isDigit, Bool.and_eq_true, decide_eq_true_eq, UInt32.le_iff_toNat_le] at h
  exact Nat.le_trans h.2 (by decide)

theorem toNat_le_of_isHexDigit {c : Char} (h : isHexDigit c = true) : c.toNat ≤ 127 := by
  simp only [isHexDigit, Bool.or_eq_true, Bool.and_eq_true, decide_eq_true_eq] at h
  rcases h with (h | h) | h
  · exact toNat_le_of_isDigit h
  · exact Nat.le_trans (Char.le_def.mp h.2) (by decide)
  · exact Nat.le_trans (Char.le_def.mp h.2) (by decide)

theorem toNat_le_of_isWordPart {c : Char} (h : isWordPart c = true) : c.toNat ≤ 127 := by
  unfold isWordPart Char.isAlphanum Char.isAlpha Char.isUpper Char.isLower at h
  simp only [Bool.or_eq_true, Bool.and_eq_true, decide_eq_true_eq] at h
  rcases h with ((h | h) | h) | rfl
  · exact Nat.le_trans (UInt32.le_iff_toNat_le.mp h.2) (by decide)
  · exact Nat.le_trans (UInt32.le_iff_toNat_le.mp h.2) (by decide)
  · exact toNat_le_of_isDigit h
  · decide

/-! ### Numerals -/

theorem take_length_takeWhile (p : Char → Bool) (cs : List Char) :
    cs.take (cs.takeWhile p).length = cs.takeWhile p :=
  (List.prefix_iff_eq_take.mp (List.takeWhile_prefix p)).symm

theorem narrow_take_hexPart {cs ds : List Char} (h : hexPart? cs = some ds) :
    Narrow (cs.take (1 + ds.length)) := by
  cases cs with
  | nil => cases h
  | cons x cs =>
      simp only [hexPart?] at h
      split at h
      · rename_i hx
        have hds : ds = cs.takeWhile isHexDigit := by
          split at h
          · cases h
          · exact (Option.some.inj h).symm
        rw [Nat.add_comm, List.take_succ_cons, hds, take_length_takeWhile]
        have hw := narrow_takeWhile (fun _ => toNat_le_of_isHexDigit) cs
        have hn : Narrow [x] := by
          intro c hc
          obtain rfl := List.mem_singleton.mp hc
          rcases hx with rfl | rfl <;> decide
        exact hn.append hw
      · cases h

/-- The characters of an integer take one byte each. -/
theorem Numeral.narrow_of_read {cs ds : List Char} {radix width : Nat}
    (h : Numeral.read cs = (.integer radix ds, width)) : Narrow (cs.take width) := by
  have hw := narrow_takeWhile (fun _ => toNat_le_of_isDigit) cs
  unfold Numeral.read at h
  dsimp only at h
  split at h
  · cases h
  · rename_i rest hne
    split at h
    · cases h
    · split at h
      · rename_i hz
        split at h
        · rename_i ds' hx
          cases h
          have hcs := List.takeWhile_append_dropWhile (p := Char.isDigit) (l := cs)
          rw [hz] at hw hcs
          rw [← hcs, show 2 + ds.length = (1 + ds.length) + 1 by omega, List.singleton_append,
            List.take_succ_cons]
          exact hw.append (narrow_take_hexPart hx)
        · cases h
      · obtain ⟨-, rfl⟩ := Prod.mk.inj h
        rw [take_length_takeWhile]
        exact hw

/-- The remarks on an integer point to it, and to the word that touches it. -/
theorem Item.fits_of_mem_integerNotes {source before text rest : List Char}
    (hs : source = before ++ (text ++ rest)) (ht : Narrow text) (value? : Option UInt64) :
    ∀ d ∈ integerNotes (Utf8.size before) text.length rest value?, d.Fits source := by
  intro d hd
  rcases List.mem_append.mp hd with hd | hd
  · split at hd
    · rename_i c cs _
      split at hd
      · obtain rfl := List.mem_singleton.mp hd
        have hw := narrow_takeWhile (fun _ => toNat_le_of_isWordPart) (c :: cs)
        have hf : Span.Fits source (.behind before (text ++ (c :: cs).takeWhile isWordPart)) := by
          refine .behind ((c :: cs).dropWhile isWordPart) ?_
          rw [List.append_assoc, List.takeWhile_append_dropWhile, hs]
        refine .one rfl ?_
        rwa [Span.behind, Utf8.size_append, ht.size, hw.size, ← Nat.add_assoc] at hf
      · cases hd
    · cases hd
  · split at hd
    · obtain rfl := List.mem_singleton.mp hd
      have hf : Span.Fits source (.behind before text) := .behind rest hs
      refine .one rfl ?_
      rwa [Span.behind, ht.size] at hf
    · cases hd

theorem Item.fits_of_mem_readNumeral {source before cs : List Char} (hs : source = before ++ cs) :
    ∀ d ∈ (readNumeral (Utf8.size before) cs).notes, d.Fits source := by
  unfold readNumeral
  rcases hr : Numeral.read cs with ⟨numeral, width⟩
  cases numeral with
  | float value => exact fun d hd => (List.not_mem_nil hd).elim
  | zero => exact fun d hd => (List.not_mem_nil hd).elim
  | integer radix ds =>
      have hw : (cs.take width).length = width := by
        have hl := Numeral.read_length cs
        rw [hr] at hl
        rw [List.length_take, Nat.min_eq_left hl]
      have htext : source = before ++ (cs.take width ++ cs.drop width) := by
        rw [List.take_append_drop, hs]
      have h := fits_of_mem_integerNotes htext (Numeral.narrow_of_read hr) (integerValue? radix ds)
      rwa [hw] at h

/-! ### String literals -/

namespace Quoted

/-- What is wrong with a literal that is read at `offset` lies in the source. -/
structure Sound (source : List Char) (offset : Nat) (q : Quoted) : Prop where
  faults : ∀ f ∈ q.faults, f.span.Fits source
  cut : ∀ n, q.cutAt = some n → offset ≤ n ∧ Text.Boundary source n

namespace Sound

variable {source : List Char} {m n : Nat} {q : Quoted}

theorem mono (h : m ≤ n) (hq : Sound source n q) : Sound source m q :=
  ⟨hq.faults, fun k hk => ⟨Nat.le_trans h (hq.cut k hk).1, (hq.cut k hk).2⟩⟩

theorem widen (hq : Sound source m q) : Sound source m q.widen := ⟨hq.faults, hq.cut⟩

theorem addBytes (bs : List UInt8) (hq : Sound source m q) : Sound source m (q.addBytes bs) :=
  ⟨hq.faults, hq.cut⟩

/-- Faults that touch are joined to one stretch. -/
theorem addFault {fault : QuotedFault} (hf : fault.span.Fits source) (hq : Sound source m q) :
    Sound source m (q.addFault fault) := by
  obtain ⟨hfaults, hcut⟩ := hq
  unfold Quoted.addFault
  split
  · rename_i f fs hfs
    rw [hfs, List.forall_mem_cons] at hfaults
    split
    · rename_i htouch
      refine ⟨List.forall_mem_cons.mpr ⟨hf.through hfaults.1 ?_, hfaults.2⟩, hcut⟩
      have h₁ := hf.ordered
      have h₂ := hfaults.1.ordered
      omega
    · exact ⟨List.forall_mem_cons.mpr ⟨hf, List.forall_mem_cons.mpr hfaults⟩, hcut⟩
  · exact ⟨fun f h => List.mem_singleton.mp h ▸ hf, hcut⟩

end Sound

theorem sound_readFrom {source : List Char} (quote : Char) (cs : List Char) :
    ∀ (skip : Nat) (before : List Char), source = before ++ cs →
      Sound source (Utf8.size before) (readFrom quote skip (Utf8.size before) cs) := by
  induction cs with
  | nil =>
      intro skip before hs
      have hb : Text.Boundary source (Utf8.size before) := ⟨before, [], hs, rfl⟩
      unfold readFrom
      refine ⟨fun f h => (List.not_mem_nil h).elim, fun n h => ?_⟩
      obtain rfl := Option.some.inj h
      exact ⟨Nat.le_refl _, hb⟩
  | cons c cs ih =>
      intro skip before hs
      -- What is read behind this character starts further on, where the induction applies.
      have hnext : ∀ skip, Sound source (Utf8.size before)
          (readFrom quote skip (Utf8.size before + c.utf8Size) cs) := by
        intro skip
        have h := ih skip (before ++ [c]) (by rw [hs, List.append_assoc, List.singleton_append])
        rw [Utf8.size_append, Utf8.size_cons, Utf8.size_nil, Nat.add_zero] at h
        exact h.mono (Nat.le_add_right _ _)
      cases skip with
      | succ skip =>
          rw [readFrom]
          exact (hnext skip).widen
      | zero =>
          have hspan : ∀ width, Span.Fits source
              ⟨Utf8.size before, Utf8.size before + Utf8.size ((c :: cs).take width)⟩ := by
            intro width
            refine .behind ((c :: cs).drop width) ?_
            rw [List.take_append_drop, hs]
          have hb : Text.Boundary source (Utf8.size before) := ⟨before, c :: cs, hs, rfl⟩
          simp only [readFrom]
          split
          · exact ((hnext _).addBytes _).widen
          · split
            · exact ⟨fun f h => (List.not_mem_nil h).elim, fun n h => by cases h⟩
            · exact ((hnext _).addBytes _).widen
          · refine ⟨fun f h => (List.not_mem_nil h).elim, fun n h => ?_⟩
            obtain rfl := Option.some.inj h
            exact ⟨Nat.le_refl _, hb⟩
          · exact ((hnext _).addFault (hspan _)).widen
          · exact ((hnext _).addFault (hspan _)).widen

end Quoted

/-- The remarks on a literal point into it. -/
theorem Quoted.fits_of_mem_diagnostics {source before cs : List Char} {c : Char} (quote : Char)
    (hc : c.utf8Size = 1) (hs : source = before ++ c :: cs) :
    ∀ d ∈ (read quote (Utf8.size before + 1) cs).diagnostics (Utf8.size before),
      d.Fits source := by
  have htext : source = before ++ [c] ++ cs := by
    rw [hs, List.append_assoc, List.singleton_append]
  have h := sound_readFrom quote cs 0 (before ++ [c]) htext
  rw [Utf8.size_append, Utf8.size_cons, Utf8.size_nil, Nat.add_zero, hc] at h
  intro d hd
  rcases List.mem_append.mp hd with hd | hd
  · obtain ⟨f, hf, rfl⟩ := List.mem_map.mp hd
    have hfit := h.faults f hf
    unfold QuotedFault.diagnostic
    split
    · exact .one rfl hfit
    · exact .one rfl hfit
  · split at hd
    · rename_i stop hcut
      obtain rfl := List.mem_singleton.mp hd
      obtain ⟨hle, hb⟩ := h.cut stop hcut
      exact .one rfl (.of_boundaries (by omega) ⟨before, c :: cs, hs, rfl⟩ hb)
    · cases hd

/-! ### All remarks -/

theorem Item.fits_of_mem_notes {source before cs : List Char} {c : Char}
    (hs : source = before ++ c :: cs) :
    ∀ d ∈ (read (Utf8.size before) c cs).notes, d.Fits source := by
  rcases read_cases (Utf8.size before) c cs with ⟨-, hr⟩ | ⟨-, hr⟩ | ⟨-, hr⟩ | ⟨hc, hr⟩ | ⟨rfl, hr⟩ |
    ⟨p, -, hr⟩ | ⟨-, hr⟩
  · rw [hr]
    exact fun d hd => (List.not_mem_nil hd).elim
  · rw [hr]
    exact fun d hd => (List.not_mem_nil hd).elim
  · rw [hr]
    exact fits_of_mem_readNumeral hs
  · rw [hr]
    refine Quoted.fits_of_mem_diagnostics c ?_ hs
    rcases hc with rfl | rfl <;> decide
  · rw [hr]
    unfold readSlash
    split
    · exact fun d hd => (List.not_mem_nil hd).elim
    · split
      · exact fun d hd => (List.not_mem_nil hd).elim
      · rename_i cs _ _
        intro d hd
        obtain rfl := List.mem_singleton.mp hd
        have htext : source = before ++ (['/', '*'] ++ cs) := hs
        exact .one rfl (.behind cs htext)
    · exact fun d hd => (List.not_mem_nil hd).elim
  · rw [hr]
    exact fun d hd => (List.not_mem_nil hd).elim
  · rw [hr]
    exact fun d hd => (List.not_mem_nil hd).elim

/-- What the scanner remarks on lies in the source. -/
theorem fits_of_note_mem_scan {source : List Char} {d : Diagnostic} (h : .note d ∈ scan source) :
    d.Fits source := by
  obtain ⟨before, c, cs, hs, hi⟩ := mem_scan h
  rcases Item.mem_lexemes hi with ⟨e, he, heq⟩ | ⟨t, s, -, heq⟩ | ⟨s, -, heq⟩
  · cases heq
    exact Item.fits_of_mem_notes hs d he
  · cases heq
  · cases heq

/-! ### Words -/

theorem Item.readSlash_reading (offset : Nat) (cs : List Char) (t : Token) :
    (readSlash offset cs).reading ≠ .token t := by
  unfold readSlash
  split
  · simp
  · split <;> simp
  · simp

/-- The text of a word is what it takes from the source. -/
theorem Item.taken_of_ident {offset : Nat} {c : Char} {cs : List Char} {word : String}
    (h : (read offset c cs).reading = .token (.ident word)) :
    (read offset c cs).taken c cs = word.toList := by
  rcases read_cases offset c cs with ⟨-, hr⟩ | ⟨-, hr⟩ | ⟨-, hr⟩ | ⟨-, hr⟩ | ⟨-, hr⟩ | ⟨p, -, hr⟩ |
    ⟨-, hr⟩
  · rw [hr] at h
    cases h
  · rw [hr] at h ⊢
    simp only [Reading.token.injEq, Token.ident.injEq] at h
    rw [← h, String.toList_ofList, taken, List.length_cons, List.take_succ_cons,
      take_length_takeWhile]
  · rw [hr] at h
    unfold readNumeral at h
    split at h
    split at h <;> cases h
  · rw [hr] at h
    cases h
  · rw [hr] at h
    exact absurd h (readSlash_reading _ _ _)
  · rw [hr] at h
    cases h
  · rw [hr] at h
    cases h

/-- A word stands in the source where the scan says. -/
theorem slice_of_ident_mem_scan {source : List Char} {word : String} {s : Span}
    (h : .token (.ident word) s ∈ scan source) : Text.slice source s = word.toList := by
  obtain ⟨before, c, cs, hs, hi⟩ := mem_scan h
  have hspan := Item.span?_lexemes hi rfl
  rcases Item.mem_lexemes hi with ⟨e, -, heq⟩ | ⟨t, s', ht, heq⟩ | ⟨s', -, heq⟩
  · cases heq
  · cases heq
    rw [hspan, ← Item.taken_of_ident ht]
    refine Text.slice_behind ((Item.read (Utf8.size before) c cs).left c cs) ?_
    rw [Item.taken_append_left, hs]
  · cases heq

end ProtoSchema
