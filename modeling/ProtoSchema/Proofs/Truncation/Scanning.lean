/-
A text that is cut behind a token scans like the whole.

The scanner takes from a text as much as belongs to one item, and what it looks at behind an item
only tells where the item ends.  So if an item lies in the front part of a text, that part alone
gives the same item: what could go on still does, and what ended ends at the latest where the text
ends.  Two kinds of items are an exception.  A literal or a comment that is not closed is one only
as long as nothing closes it, and an integer is remarked on for what touches it.  But both leave
a note, and the texts here give tokens only.
-/
import ProtoSchema.Proofs.Layout.Lines
import ProtoSchema.Proofs.Scanning.Tiling

namespace ProtoSchema

/-! ### Characters in a row -/

section Rows

variable {p : Char → Bool} {xs ys : List Char}

theorem takeWhile_cut (h : ((xs ++ ys).takeWhile p).length ≤ xs.length) :
    xs.takeWhile p = (xs ++ ys).takeWhile p := by
  induction xs with
  | nil => exact (List.eq_nil_of_length_eq_zero (Nat.le_zero.mp h)).symm
  | cons x xs ih =>
      rw [List.cons_append, List.takeWhile_cons] at h ⊢
      rw [List.takeWhile_cons]
      split
      · rename_i hp
        rw [if_pos hp, List.length_cons, List.length_cons] at h
        rw [ih (Nat.le_of_succ_le_succ h)]
      · rfl

theorem dropWhile_cut (h : ((xs ++ ys).takeWhile p).length ≤ xs.length) :
    (xs ++ ys).dropWhile p = xs.dropWhile p ++ ys := by
  have hparts := List.takeWhile_append_dropWhile (p := p) (l := xs ++ ys)
  rw [← takeWhile_cut h] at hparts
  have hsame : xs.takeWhile p ++ (xs ++ ys).dropWhile p =
      xs.takeWhile p ++ (xs.dropWhile p ++ ys) := by
    rw [hparts, ← List.append_assoc, List.takeWhile_append_dropWhile]
  exact List.append_cancel_left hsame

theorem takeWhile_cut_nil (h : (xs ++ ys).takeWhile p = []) : xs.takeWhile p = [] := by
  rw [takeWhile_cut (by rw [h]; exact Nat.zero_le _), h]

/-- The same for a row of at most `n` characters. -/
theorem take_takeWhile_cut {n : Nat} (h : (((xs ++ ys).take n).takeWhile p).length ≤ xs.length) :
    (xs.take n).takeWhile p = ((xs ++ ys).take n).takeWhile p := by
  have hn := (List.takeWhile_prefix p (l := (xs ++ ys).take n)).length_le
  rw [List.length_take] at hn
  rw [List.take_append] at h hn ⊢
  refine takeWhile_cut ?_
  rw [List.length_take]
  omega

end Rows

/-! ### Numerals -/

section Numerals

variable {xs ys : List Char}

/-- What digits make of an exponent, if there are any. -/
def exponentOf? (f : List Char → Int × Nat) : List Char → Option (Int × Nat)
  | [] => none
  | ds => some (f ds)

/-- Behind its letter an exponent has a sign, or starts with a digit. -/
theorem exponentPart?_sign {c : Char} (hc : c = 'e' ∨ c = 'E') (s : Char) :
    ∃ (f : List Char → Int × Nat) (n : Nat) (front : List Char),
      (∀ ds, (f ds).2 = n + ds.length) ∧ n + front.length = 2 ∧
      ∀ cs, exponentPart? (c :: s :: cs) =
        exponentOf? f ((front ++ cs).takeWhile Char.isDigit) := by
  by_cases hp : s = '+'
  · subst hp
    refine ⟨fun ds => ((valueOfDigits 10 ds : Int), 2 + ds.length), 2, [], fun _ => rfl, rfl,
      fun cs => ?_⟩
    simp only [exponentPart?, if_pos hc]
    rfl
  by_cases hm : s = '-'
  · subst hm
    refine ⟨fun ds => (-(valueOfDigits 10 ds : Int), 2 + ds.length), 2, [], fun _ => rfl, rfl,
      fun cs => ?_⟩
    simp only [exponentPart?, if_pos hc]
    rfl
  · refine ⟨fun ds => ((valueOfDigits 10 ds : Int), 1 + ds.length), 1, [s], fun _ => rfl, rfl,
      fun cs => ?_⟩
    simp only [exponentPart?, if_pos hc, List.cons.injEq, hp, hm, false_and, imp_self, implies_true]
    rfl

theorem exponentPart?_two_le {c : Char} {cs : List Char} {e : Int} {width : Nat}
    (h : exponentPart? (c :: cs) = some (e, width)) : 2 ≤ width := by
  simp only [exponentPart?] at h
  split at h
  · split at h
    · cases h
    · rename_i heq hne
      cases h
      have hpos := List.length_pos_iff.mpr hne
      omega
  · cases h

theorem exponentPart?_letter {c : Char} {cs : List Char} (hc : ¬(c = 'e' ∨ c = 'E')) :
    exponentPart? (c :: cs) = none := by
  simp only [exponentPart?, if_neg hc]

theorem exponentPart?_cut {e : Int} {width : Nat} (h : exponentPart? (xs ++ ys) = some (e, width))
    (hw : width ≤ xs.length) : exponentPart? xs = some (e, width) := by
  match xs with
  | [] => exact absurd hw (Nat.not_le.mpr (exponentPart?_width_pos h))
  | [c] => exact absurd hw (Nat.not_le.mpr (exponentPart?_two_le h))
  | c :: s :: xs =>
      by_cases hc : c = 'e' ∨ c = 'E'
      · obtain ⟨f, n, front, hf, hn, heq⟩ := exponentPart?_sign hc s
        rw [List.cons_append, List.cons_append, heq, ← List.append_assoc] at h
        rw [heq]
        cases hds : ((front ++ xs) ++ ys).takeWhile Char.isDigit with
        | nil =>
            rw [hds] at h
            cases h
        | cons d ds =>
            rw [hds] at h
            have hwidth := hf (d :: ds)
            rw [Option.some.inj h] at hwidth
            have hlen : (((front ++ xs) ++ ys).takeWhile Char.isDigit).length ≤
                (front ++ xs).length := by
              rw [hds, List.length_append]
              rw [List.length_cons, List.length_cons] at hw
              dsimp only at hwidth
              omega
            rw [takeWhile_cut hlen, hds]
            exact h
      · rw [List.cons_append, exponentPart?_letter hc] at h
        cases h

theorem exponentPart?_cut_none (h : exponentPart? (xs ++ ys) = none) : exponentPart? xs = none := by
  match xs with
  | [] => rfl
  | [c] =>
      by_cases hc : c = 'e' ∨ c = 'E'
      · simp only [exponentPart?, if_pos hc]
        rfl
      · exact exponentPart?_letter hc
  | c :: s :: xs =>
      by_cases hc : c = 'e' ∨ c = 'E'
      · obtain ⟨f, n, front, hf, hn, heq⟩ := exponentPart?_sign hc s
        rw [List.cons_append, List.cons_append, heq, ← List.append_assoc] at h
        rw [heq]
        cases hds : ((front ++ xs) ++ ys).takeWhile Char.isDigit with
        | nil =>
            rw [takeWhile_cut_nil hds]
            rfl
        | cons d ds =>
            rw [hds] at h
            cases h
      · exact exponentPart?_letter hc

theorem hexPart?_cut {ds : List Char} (h : hexPart? (xs ++ ys) = some ds)
    (hw : ds.length + 1 ≤ xs.length) : hexPart? xs = some ds := by
  cases xs with
  | nil => exact absurd hw (Nat.not_succ_le_zero _)
  | cons x xs =>
      simp only [List.cons_append, hexPart?] at h ⊢
      split at h
      · rename_i hx
        rw [if_pos hx]
        cases hds : (xs ++ ys).takeWhile isHexDigit with
        | nil =>
            rw [hds] at h
            cases h
        | cons d ds' =>
            rw [hds] at h
            obtain rfl := Option.some.inj h
            rw [takeWhile_cut (by rw [hds]; exact Nat.le_of_succ_le_succ hw), hds]
      · cases h

theorem hexPart?_cut_none (h : hexPart? (xs ++ ys) = none) : hexPart? xs = none := by
  cases xs with
  | nil => rfl
  | cons x xs =>
      simp only [List.cons_append, hexPart?] at h ⊢
      split at h
      · rename_i hx
        rw [if_pos hx]
        split at h
        · rename_i hnil
          rw [takeWhile_cut_nil hnil]
        · cases h
      · rename_i hx
        rw [if_neg hx]

namespace Numeral

/-- A numeral without a point, by its first digits and what stands behind them. -/
def pointless (whole rest : List Char) : Numeral × Nat :=
  match exponentPart? rest with
  | some (e, width) => (.float ⟨valueOfDigits 10 whole, e⟩, whole.length + width)
  | none =>
    if whole = ['0'] then
      match hexPart? rest with
      | some ds => (.integer 16 ds, 2 + ds.length)
      | none => (.zero, 1)
    else (ofDigits whole, whole.length)

/-- A numeral with a point, by its first digits and what stands behind the point. -/
def pointed (whole rest : List Char) : Numeral × Nat :=
  let places := rest.takeWhile Char.isDigit
  let (e, width) := (exponentPart? (rest.dropWhile Char.isDigit)).getD (0, 0)
  (.float ⟨valueOfDigits 10 (whole ++ places), e - places.length⟩,
    whole.length + 1 + places.length + width)

theorem read_pointed {cs rest : List Char} (h : cs.dropWhile Char.isDigit = '.' :: rest) :
    read cs = pointed (cs.takeWhile Char.isDigit) rest := by
  unfold read
  rw [h]
  rfl

theorem read_pointless {cs : List Char} (h : ∀ rest, cs.dropWhile Char.isDigit ≠ '.' :: rest) :
    read cs = pointless (cs.takeWhile Char.isDigit) (cs.dropWhile Char.isDigit) := by
  unfold read
  dsimp only
  split
  · rename_i rest heq
    exact absurd heq (h rest)
  · rfl

theorem length_le_pointless (whole rest : List Char) :
    whole.length ≤ (pointless whole rest).2 := by
  unfold pointless
  split
  · exact Nat.le_add_right _ _
  · split
    · rename_i hz
      rw [hz]
      split
      · exact Nat.le_trans (Nat.le_succ 1) (Nat.le_add_right _ _)
      · exact Nat.le_refl 1
    · exact Nat.le_refl _

theorem pointless_cut {whole : List Char}
    (h : (pointless whole (xs ++ ys)).2 ≤ whole.length + xs.length) :
    pointless whole xs = pointless whole (xs ++ ys) := by
  unfold pointless at h ⊢
  cases he : exponentPart? (xs ++ ys) with
  | some exponent =>
      obtain ⟨e, width⟩ := exponent
      rw [he] at h
      rw [exponentPart?_cut he (Nat.le_of_add_le_add_left h)]
  | none =>
      rw [he] at h
      rw [exponentPart?_cut_none he]
      dsimp only at h ⊢
      by_cases hz : whole = ['0']
      · rw [if_pos hz] at h ⊢
        rw [if_pos hz]
        subst hz
        cases hx : hexPart? (xs ++ ys) with
        | some ds =>
            rw [hx] at h
            have hlen : ds.length + 1 ≤ xs.length := by
              simp only [List.length_cons, List.length_nil] at h
              omega
            rw [hexPart?_cut hx hlen]
        | none => rw [hexPart?_cut_none hx]
      · rw [if_neg hz, if_neg hz]

theorem pointed_cut {whole : List Char}
    (h : (pointed whole (xs ++ ys)).2 ≤ whole.length + 1 + xs.length) :
    pointed whole xs = pointed whole (xs ++ ys) := by
  have hplaces : ((xs ++ ys).takeWhile Char.isDigit).length ≤ xs.length := by
    unfold pointed at h
    dsimp only at h
    omega
  have hwidth := length_takeWhile_add Char.isDigit xs
  unfold pointed at h ⊢
  rw [dropWhile_cut hplaces] at h ⊢
  rw [← takeWhile_cut hplaces] at h ⊢
  cases he : exponentPart? (xs.dropWhile Char.isDigit ++ ys) with
  | some exponent =>
      rw [he] at h
      rw [exponentPart?_cut (e := exponent.1) he (by dsimp only [Option.getD_some] at h; omega)]
  | none => rw [exponentPart?_cut_none he]

/-- A numeral in the front part of a text is the numeral of that part. -/
theorem read_cut (h : (read (xs ++ ys)).2 ≤ xs.length) : read xs = read (xs ++ ys) := by
  have hparts := length_takeWhile_add Char.isDigit xs
  by_cases hdot : ∃ rest, (xs ++ ys).dropWhile Char.isDigit = '.' :: rest
  · obtain ⟨rest, hrest⟩ := hdot
    rw [read_pointed hrest] at h ⊢
    have hwhole : ((xs ++ ys).takeWhile Char.isDigit).length + 1 ≤ xs.length := by
      unfold pointed at h
      dsimp only at h
      omega
    have hsame := takeWhile_cut (Nat.le_of_succ_le hwhole)
    rw [dropWhile_cut (Nat.le_of_succ_le hwhole)] at hrest
    rw [← hsame] at h hwhole ⊢
    cases hd : xs.dropWhile Char.isDigit with
    | nil =>
        rw [hd, List.length_nil] at hparts
        omega
    | cons d tail =>
        rw [hd, List.cons_append] at hrest
        obtain ⟨rfl, rfl⟩ := List.cons.inj hrest
        rw [read_pointed hd]
        refine pointed_cut ?_
        rw [hd, List.length_cons] at hparts
        omega
  · have hdot := not_exists.mp hdot
    rw [read_pointless hdot] at h ⊢
    have hwhole := Nat.le_trans (length_le_pointless _ _) h
    have hsame := takeWhile_cut hwhole
    rw [dropWhile_cut hwhole] at h hdot ⊢
    rw [← hsame] at h ⊢
    rw [read_pointless fun rest hrest => hdot (rest ++ ys) (by rw [hrest]; rfl)]
    exact pointless_cut (hparts ▸ h)

end Numeral

end Numerals

/-! ### String literals -/

section Literals

variable {xs ys : List Char}

namespace QuotedPart

theorem readCodePoint_cut {n : Nat} (h : (readCodePoint n (xs ++ ys)).1 ≠ .invalidEscape)
    (hw : (readCodePoint n (xs ++ ys)).2 ≤ xs.length + 2) :
    readCodePoint n xs = readCodePoint n (xs ++ ys) := by
  have hn : n ≤ xs.length := by
    unfold readCodePoint at h hw
    dsimp only at h hw
    split at h
    · rename_i hds
      rw [if_pos hds] at hw
      split at h
      · rename_i hv
        rw [if_pos hv] at hw
        dsimp only at hw
        omega
      · exact absurd rfl h
    · exact absurd rfl h
  rw [readCodePoint, readCodePoint, List.take_append_of_le_length hn]

theorem two_le_readCodePoint {n : Nat} {cs : List Char}
    (h : (readCodePoint n cs).1 ≠ .invalidEscape) : 2 ≤ (readCodePoint n cs).2 := by
  unfold readCodePoint at h ⊢
  dsimp only at h ⊢
  split
  · split
    · exact Nat.le_add_right _ _
    · exact Nat.le_add_right _ _
  · rename_i hds
    rw [if_neg hds] at h
    exact absurd rfl h

theorem two_le_readEscape {cs : List Char} (h : (readEscape cs).1 ≠ .invalidEscape) :
    2 ≤ (readEscape cs).2 := by
  cases cs with
  | nil => exact absurd rfl h
  | cons c cs =>
      unfold readEscape at h ⊢
      dsimp only at h ⊢
      split
      · rename_i hx
        rw [if_pos hx] at h
        split
        · rename_i hnil
          rw [hnil] at h
          exact absurd rfl h
        · exact Nat.le_add_right _ _
      split
      · rename_i ho
        dsimp only
        rw [List.take_succ_cons, List.takeWhile_cons, if_pos ho, List.length_cons]
        omega
      split
      · rename_i hx ho hu
        rw [if_neg hx, if_neg ho, if_pos hu] at h
        exact two_le_readCodePoint h
      split
      · rename_i hx ho hu hv
        rw [if_neg hx, if_neg ho, if_neg hu, if_pos hv] at h
        exact two_le_readCodePoint h
      · rename_i hx ho hu hv
        rw [if_neg hx, if_neg ho, if_neg hu, if_neg hv] at h
        cases hl : letterEscape? c with
        | some b => exact Nat.le_refl 2
        | none =>
            rw [hl] at h
            exact absurd rfl h

theorem readEscape_cut (h : (readEscape (xs ++ ys)).1 ≠ .invalidEscape)
    (hw : (readEscape (xs ++ ys)).2 ≤ xs.length + 1) :
    readEscape xs = readEscape (xs ++ ys) := by
  -- An escape has two characters at least, so the letter stands before the cut.
  have htwo := two_le_readEscape h
  cases xs with
  | nil =>
      rw [List.length_nil] at hw
      omega
  | cons c xs =>
      rw [List.cons_append, List.length_cons] at *
      unfold readEscape at h hw ⊢
      dsimp only at h hw ⊢
      split at h
      · rename_i hx
        rw [if_pos hx] at hw
        rw [if_pos hx, if_pos hx]
        have hds : (((xs ++ ys).take 2).takeWhile isHexDigit).length ≤ xs.length := by
          split at hw
          · rename_i hnil
            rw [hnil]
            exact Nat.zero_le _
          · dsimp only at hw
            omega
        rw [take_takeWhile_cut hds]
      split at h
      · rename_i hx ho
        rw [if_neg hx, if_pos ho] at hw
        rw [if_neg hx, if_neg hx, if_pos ho, if_pos ho]
        rw [← List.cons_append] at hw ⊢
        have hds : (((c :: xs ++ ys).take 3).takeWhile isOctalDigit).length ≤ (c :: xs).length := by
          rw [List.length_cons]
          dsimp only at hw
          omega
        rw [take_takeWhile_cut hds]
      split at h
      · rename_i hx ho hu
        rw [if_neg hx, if_neg ho, if_pos hu] at hw
        rw [if_neg hx, if_neg hx, if_neg ho, if_neg ho, if_pos hu, if_pos hu]
        exact readCodePoint_cut h hw
      split at h
      · rename_i hx ho hu hv
        rw [if_neg hx, if_neg ho, if_neg hu, if_pos hv] at hw
        rw [if_neg hx, if_neg hx, if_neg ho, if_neg ho, if_neg hu, if_neg hu, if_pos hv, if_pos hv]
        exact readCodePoint_cut h hw
      · rename_i hx ho hu hv
        rw [if_neg hx, if_neg hx, if_neg ho, if_neg ho, if_neg hu, if_neg hu, if_neg hv, if_neg hv]

theorem read_cut {c : Char} (h : (read c (xs ++ ys)).1 ≠ .invalidEscape)
    (hw : (read c (xs ++ ys)).2 ≤ xs.length + 1) : read c xs = read c (xs ++ ys) := by
  unfold read at h hw ⊢
  split at h
  · rename_i hb
    rw [if_pos hb] at hw
    rw [if_pos hb, if_pos hb]
    exact readEscape_cut h hw
  · rename_i hb
    rw [if_neg hb, if_neg hb]

theorem readEscape_ne_quote (cs : List Char) (q : Char) : (readEscape cs).1 ≠ .quote q := by
  have hcode (n : Nat) (cs : List Char) : (readCodePoint n cs).1 ≠ .quote q := by
    unfold readCodePoint
    dsimp only
    split
    · split <;> exact nofun
    · exact nofun
  cases cs with
  | nil => exact nofun
  | cons c cs =>
      unfold readEscape
      dsimp only
      split
      · split <;> exact nofun
      split
      · dsimp only
        split <;> exact nofun
      split
      · exact hcode _ _
      split
      · exact hcode _ _
      · split <;> exact nofun

/-- A quote is one character. -/
theorem width_of_quote {c q : Char} {cs : List Char} (h : (read c cs).1 = .quote q) :
    (read c cs).2 = 1 := by
  unfold read at h ⊢
  split at h
  · exact absurd h (readEscape_ne_quote cs q)
  · rename_i hb
    rw [if_neg hb]
    split
    · rfl
    · split
      · rfl
      · split <;> rfl

end QuotedPart

namespace Quoted

/-- What belongs to a part that was read already comes before the closing quote. -/
theorem lt_width {quote : Char} (cs : List Char) :
    ∀ skip offset, (readFrom quote skip offset cs).cutAt = none →
      skip < (readFrom quote skip offset cs).width := by
  induction cs with
  | nil =>
      intro skip offset h
      unfold readFrom at h
      cases h
  | cons c cs ih =>
      intro skip offset h
      cases skip with
      | succ skip => exact Nat.succ_lt_succ (ih skip _ h)
      | zero =>
          unfold readFrom
          dsimp only
          split
          · exact Nat.succ_pos _
          · split
            · exact Nat.one_pos
            · exact Nat.succ_pos _
          · exact Nat.one_pos
          · exact Nat.succ_pos _
          · exact Nat.succ_pos _

/-- A literal that is closed in the front part of a text is the literal of that part. -/
theorem readFrom_cut {quote : Char} (ys xs : List Char) :
    ∀ skip offset, (readFrom quote skip offset (xs ++ ys)).faults = [] →
      (readFrom quote skip offset (xs ++ ys)).cutAt = none →
      (readFrom quote skip offset (xs ++ ys)).width ≤ xs.length →
      readFrom quote skip offset xs = readFrom quote skip offset (xs ++ ys) := by
  induction xs with
  | nil =>
      intro skip offset _ hc hw
      have hlt := lt_width _ skip offset hc
      exact absurd (Nat.lt_of_lt_of_le hlt hw) (Nat.not_lt_zero skip)
  | cons c xs ih =>
      intro skip offset hf hc hw
      cases skip with
      | succ skip =>
          have hrest := ih skip (offset + c.utf8Size) hf hc (Nat.le_of_succ_le_succ hw)
          exact congrArg widen hrest
      | zero =>
          have hread : (QuotedPart.read c (xs ++ ys)).1 ≠ .invalidEscape →
              (QuotedPart.read c (xs ++ ys)).2 ≤ xs.length + 1 →
              QuotedPart.read c xs = QuotedPart.read c (xs ++ ys) := QuotedPart.read_cut
          have hquote (q : Char) : (QuotedPart.read c (xs ++ ys)).1 = .quote q →
              (QuotedPart.read c (xs ++ ys)).2 = 1 := QuotedPart.width_of_quote
          rw [List.cons_append] at hf hc hw ⊢
          unfold readFrom at hf hc hw ⊢
          generalize QuotedPart.read c (xs ++ ys) = r at hf hc hw hread hquote ⊢
          obtain ⟨part, width⟩ := r
          dsimp only at hf hc hw hread ⊢
          -- The rest of the part is passed over before the closing quote is found.
          have hwidth {o : Nat} (hcut : (readFrom quote (width - 1) o (xs ++ ys)).cutAt = none)
              (hle : (readFrom quote (width - 1) o (xs ++ ys)).width ≤ xs.length) :
              width ≤ xs.length + 1 := by
            have hlt := lt_width _ (width - 1) o hcut
            omega
          cases part with
          | bytes bs =>
              have hle := Nat.le_of_succ_le_succ hw
              rw [hread (by simp) (hwidth hc hle)]
              dsimp only
              rw [ih (width - 1) _ hf hc hle]
          | quote q =>
              obtain rfl := hquote q rfl
              rw [hread (by simp) (Nat.le_add_left _ _)]
              dsimp only at hf hc hw ⊢
              by_cases hq : q = quote
              · rw [if_pos hq, if_pos hq]
              · rw [if_neg hq] at hf hc hw
                rw [if_neg hq, if_neg hq, ih 0 _ hf hc (Nat.le_of_succ_le_succ hw)]
          | lineFeed => cases hc
          | invalidEscape => exact absurd hf (faults_addFault _ _)
          | invalidCharacter => exact absurd hf (faults_addFault _ _)

end Quoted

end Literals

/-! ### Items -/

theorem two_le_commentLength? {cs : List Char} {n : Nat} (h : commentLength? cs = some n) :
    2 ≤ n := by
  obtain ⟨body, rest, -, rfl, -⟩ := commentLength?_eq_some h
  exact Nat.le_add_left 2 _

theorem commentLength?_cut {n : Nat} (ys xs : List Char)
    (h : commentLength? (xs ++ ys) = some n) (hn : n ≤ xs.length) :
    commentLength? xs = some n := by
  induction xs generalizing n with
  | nil =>
      have htwo := two_le_commentLength? h
      rw [List.length_nil] at hn
      omega
  | cons x xs ih =>
      have htwo := two_le_commentLength? h
      rw [List.cons_append] at h
      rw [List.length_cons] at hn
      by_cases hend : ∃ tail, x = '*' ∧ xs ++ ys = '/' :: tail
      · obtain ⟨tail, rfl, htail⟩ := hend
        rw [htail] at h
        cases xs with
        | nil =>
            rw [List.length_nil] at hn
            omega
        | cons d xs =>
            obtain ⟨rfl, -⟩ := List.cons.inj htail
            exact h
      · have hne (tail : List Char) (hx : x = '*') (htail : xs ++ ys = '/' :: tail) : False :=
          hend ⟨tail, hx, htail⟩
        rw [commentLength?.eq_3 x (xs ++ ys) hne] at h
        obtain ⟨m, hm, rfl⟩ := Option.map_eq_some_iff.mp h
        rw [commentLength?.eq_3 x xs fun tail hx htail => hne (tail ++ ys) hx (by rw [htail]; rfl),
          ih hm (Nat.le_of_succ_le_succ hn)]
        rfl

namespace Item

variable {offset : Nat} {c : Char} {xs ys : List Char}

theorem integerNotes_cut {width : Nat} {value? : Option UInt64}
    (h : integerNotes offset width (xs ++ ys) value? = []) :
    integerNotes offset width xs value? = [] := by
  unfold integerNotes at h ⊢
  obtain ⟨hw, hv⟩ := List.append_eq_nil_iff.mp h
  refine List.append_eq_nil_iff.mpr ⟨?_, hv⟩
  cases xs with
  | nil => rfl
  | cons x xs =>
      dsimp only [List.cons_append] at hw ⊢
      split at hw
      · cases hw
      · rename_i hx
        exact if_neg hx

theorem readNumeral_cut (h : (readNumeral offset (xs ++ ys)).notes = [])
    (hw : (readNumeral offset (xs ++ ys)).width ≤ xs.length) :
    readNumeral offset xs = readNumeral offset (xs ++ ys) := by
  rw [readNumeral_width] at hw
  unfold readNumeral at h ⊢
  rw [Numeral.read_cut hw]
  generalize Numeral.read (xs ++ ys) = r at h hw ⊢
  obtain ⟨numeral, width⟩ := r
  cases numeral with
  | float value => rfl
  | zero => rfl
  | integer radix ds =>
      dsimp only at h hw ⊢
      rw [h]
      rw [List.drop_append_of_le_length hw] at h
      rw [integerNotes_cut h]

/-- Only a slash before another one, or before an asterisk, is not illegal. -/
theorem two_le_readSlash {cs : List Char} (h : (readSlash offset cs).reading ≠ .illegal) :
    2 ≤ (readSlash offset cs).width := by
  unfold readSlash at h ⊢
  split
  · exact Nat.le_add_right _ _
  · split
    · exact Nat.le_add_right _ _
    · exact Nat.le_add_right _ _
  · rename_i hl hb
    split at h
    · exact absurd rfl (hl _)
    · exact absurd rfl (hb _)
    · exact absurd rfl h

theorem readSlash_cut (h : (readSlash offset (xs ++ ys)).notes = [])
    (hr : (readSlash offset (xs ++ ys)).reading ≠ .illegal)
    (hw : (readSlash offset (xs ++ ys)).width ≤ xs.length + 1) :
    readSlash offset xs = readSlash offset (xs ++ ys) := by
  have htwo := two_le_readSlash hr
  cases xs with
  | nil =>
      rw [List.length_nil] at hw
      omega
  | cons x xs =>
      by_cases hl : x = '/'
      · subst hl
        simp only [List.cons_append, readSlash, List.length_cons] at hw ⊢
        have hline : ((xs ++ ys).takeWhile (· ≠ '\n')).length ≤ xs.length := by omega
        rw [takeWhile_cut hline]
      by_cases hb : x = '*'
      · subst hb
        simp only [List.cons_append, readSlash, List.length_cons] at h hw ⊢
        cases hc : commentLength? (xs ++ ys) with
        | none =>
            rw [hc] at h
            cases h
        | some n =>
            rw [hc] at hw
            rw [commentLength?_cut ys xs hc (by dsimp only at hw; omega)]
      · rw [List.cons_append, readSlash] at hr
        · exact absurd rfl hr
        · exact fun cs heq => hl (List.cons.inj heq).1
        · exact fun cs heq => hb (List.cons.inj heq).1

theorem two_le_readPoint {cs : List Char} (h : cs.head?.any Char.isDigit = true) :
    2 ≤ (readNumeral offset ('.' :: cs)).width := by
  have hread : Numeral.read ('.' :: cs) = Numeral.pointed [] cs := Numeral.read_pointed rfl
  rw [readNumeral_width, hread, Numeral.pointed]
  cases cs with
  | nil => cases h
  | cons d cs =>
      have hd : d.isDigit = true := h
      have hpos : 0 < ((d :: cs).takeWhile Char.isDigit).length := by
        rw [List.takeWhile_cons, if_pos hd]
        exact Nat.succ_pos _
      dsimp only
      omega

/-- An item in the front part of a text is the item of that part. -/
theorem read_cut (h : (read offset c (xs ++ ys)).notes = [])
    (hr : (read offset c (xs ++ ys)).reading ≠ .illegal)
    (hw : (read offset c (xs ++ ys)).width ≤ (c :: xs).length) :
    read offset c xs = read offset c (xs ++ ys) := by
  rw [List.length_cons] at hw
  -- Whether a point begins a number depends on the next character, which may be cut off.
  have hdigit : (c = '.' && xs.head?.any Char.isDigit) =
      (c = '.' && (xs ++ ys).head?.any Char.isDigit) := by
    cases xs with
    | cons x xs => rfl
    | nil =>
        rw [List.nil_append] at hw ⊢
        cases hp : (decide (c = '.') && ys.head?.any Char.isDigit) with
        | false => exact Bool.and_false _
        | true =>
            obtain ⟨hc, hd⟩ := Bool.and_eq_true_iff.mp hp
            obtain rfl := of_decide_eq_true hc
            have hread : read offset '.' ys = readNumeral offset ('.' :: ys) := by
              rw [read, if_neg (by decide), if_neg (by decide), if_pos]
              rw [hp, Bool.or_true]
            rw [hread] at hw
            exact absurd (Nat.le_trans (two_le_readPoint hd) hw) (by decide)
  -- The kinds of items, in the order in which the scanner tries them.
  unfold read at h hr hw ⊢
  rw [hdigit]
  split at h
  · rename_i h1
    rw [if_pos h1, if_pos h1]
  split at h
  · rename_i h1 h2
    rw [if_neg h1, if_pos h2] at hw
    rw [if_neg h1, if_neg h1, if_pos h2, if_pos h2]
    dsimp only at hw ⊢
    rw [List.length_cons] at hw
    rw [takeWhile_cut (Nat.le_of_succ_le_succ hw)]
  split at h
  · rename_i h1 h2 h3
    rw [if_neg h1, if_neg h2, if_pos h3] at hw
    rw [if_neg h1, if_neg h1, if_neg h2, if_neg h2, if_pos h3, if_pos h3]
    rw [← List.cons_append] at h hw ⊢
    exact readNumeral_cut h hw
  split at h
  · rename_i h1 h2 h3 h4
    rw [if_neg h1, if_neg h2, if_neg h3, if_pos h4] at hw
    rw [if_neg h1, if_neg h1, if_neg h2, if_neg h2, if_neg h3, if_neg h3, if_pos h4, if_pos h4]
    dsimp only at h hw ⊢
    obtain ⟨hf, hc⟩ := List.append_eq_nil_iff.mp h
    -- A literal with nothing to report has its closing quote, which stands before the cut.
    have hcut : (Quoted.read c (offset + 1) (xs ++ ys)).cutAt = none := by
      cases hq : (Quoted.read c (offset + 1) (xs ++ ys)).cutAt with
      | none => rfl
      | some stop =>
          rw [hq] at hc
          cases hc
    have hsame : Quoted.read c (offset + 1) xs = Quoted.read c (offset + 1) (xs ++ ys) :=
      Quoted.readFrom_cut ys xs 0 (offset + 1) (List.map_eq_nil_iff.mp hf) hcut
        (by rw [Nat.add_comm] at hw; exact Nat.le_of_succ_le_succ hw)
    rw [hsame]
  split at h
  · rename_i h1 h2 h3 h4 h5
    rw [if_neg h1, if_neg h2, if_neg h3, if_neg h4, if_pos h5] at hw hr
    rw [if_neg h1, if_neg h1, if_neg h2, if_neg h2, if_neg h3, if_neg h3, if_neg h4, if_neg h4,
      if_pos h5, if_pos h5]
    exact readSlash_cut h hr hw
  · rename_i h1 h2 h3 h4 h5
    rw [if_neg h1, if_neg h1, if_neg h2, if_neg h2, if_neg h3, if_neg h3, if_neg h4, if_neg h4,
      if_neg h5, if_neg h5]

/-- What contributes tokens only has nothing to report and is not illegal. -/
theorem quiet_of_clean {item : Item} {cs : List Char} (h : Clean (item.lexemes offset c cs)) :
    item.notes = [] ∧ item.reading ≠ .illegal := by
  constructor
  · refine List.eq_nil_iff_forall_not_mem.mpr fun d hd => ?_
    obtain ⟨t, s, heq⟩ := h (.note d) (List.mem_append_left _ (List.mem_map_of_mem hd))
    cases heq
  · intro hill
    obtain ⟨t, s, heq⟩ := h (.illegal c ⟨offset, offset + Utf8.size ((c :: cs).take item.width)⟩) (by
      rw [lexemes, hill]
      exact List.mem_append_right _ (List.mem_singleton_self _))
    cases heq

theorem lexemes_cut (item : Item) (h : item.width ≤ (c :: xs).length) :
    item.lexemes offset c xs = item.lexemes offset c (xs ++ ys) := by
  have htake : (c :: (xs ++ ys)).take item.width = (c :: xs).take item.width :=
    List.take_append_of_le_length h
  rw [lexemes, lexemes, htake]

end Item

/-! ### Texts -/

/-- Two fronts of one text that are of one size. -/
theorem eq_of_size_eq {as bs cs ds : List Char} (h : as ++ bs = cs ++ ds)
    (hsize : Utf8.size as = Utf8.size cs) : as = cs ∧ bs = ds := by
  induction as generalizing cs with
  | nil =>
      cases cs with
      | nil => exact ⟨rfl, h⟩
      | cons c cs =>
          have hpos := c.utf8Size_pos
          rw [Utf8.size_nil, Utf8.size_cons] at hsize
          omega
  | cons a as ih =>
      cases cs with
      | nil =>
          have hpos := a.utf8Size_pos
          rw [Utf8.size_nil, Utf8.size_cons] at hsize
          omega
      | cons c cs =>
          obtain ⟨rfl, htail⟩ := List.cons.inj h
          rw [Utf8.size_cons, Utf8.size_cons] at hsize
          obtain ⟨rfl, rfl⟩ := ih htail (Nat.add_left_cancel hsize)
          exact ⟨rfl, rfl⟩

/-- Of two fronts of one text the smaller one is a front of the other. -/
theorem prefix_of_size_le {as bs cs ds : List Char} (h : as ++ bs = cs ++ ds)
    (hsize : Utf8.size as ≤ Utf8.size cs) : ∃ mid, cs = as ++ mid ∧ bs = mid ++ ds := by
  induction as generalizing cs with
  | nil => exact ⟨cs, rfl, h⟩
  | cons a as ih =>
      cases cs with
      | nil =>
          have hpos := a.utf8Size_pos
          rw [Utf8.size_nil, Utf8.size_cons] at hsize
          omega
      | cons c cs =>
          obtain ⟨rfl, htail⟩ := List.cons.inj h
          rw [Utf8.size_cons, Utf8.size_cons] at hsize
          obtain ⟨mid, rfl, rfl⟩ := ih htail (Nat.le_of_add_le_add_left hsize)
          exact ⟨mid, rfl, rfl⟩

/-- A text of which the first item lies in the front part. -/
theorem scanFrom_cons_cut {before xs mid ys : List Char} {c : Char}
    (hc : Clean (scanFrom 0 (Utf8.size before) (c :: (xs ++ ys))))
    (htaken : c :: xs = (Item.read (Utf8.size before) c (xs ++ ys)).taken c (xs ++ ys) ++ mid)
    (hys : ys ≠ []) :
    scanFrom 0 (Utf8.size before) (c :: xs) =
      (Item.read (Utf8.size before) c (xs ++ ys)).lexemes (Utf8.size before) c (xs ++ ys) ++
        scanFrom 0 (Utf8.size (before ++
          (Item.read (Utf8.size before) c (xs ++ ys)).taken c (xs ++ ys))) mid := by
  rw [scanFrom_cons] at hc
  obtain ⟨hnotes, hill⟩ := Item.quiet_of_clean (List.forall_mem_append.mp hc).1
  have hwidth : (Item.read (Utf8.size before) c (xs ++ ys)).width ≤ (c :: xs).length := by
    have hlen := congrArg List.length htaken
    have hpos := List.length_pos_iff.mpr hys
    rw [Item.taken] at hlen
    simp only [List.length_append, List.length_take, List.length_cons] at hlen ⊢
    omega
  have hread := Item.read_cut hnotes hill hwidth
  have htake : (Item.read (Utf8.size before) c (xs ++ ys)).taken c xs =
      (Item.read (Utf8.size before) c (xs ++ ys)).taken c (xs ++ ys) :=
    (List.take_append_of_le_length hwidth).symm
  rw [scanFrom_cons, hread, Item.lexemes_cut _ hwidth, ← Utf8.size_append, htake]
  congr 1
  have hparts := Item.taken_append_left (Item.read (Utf8.size before) c (xs ++ ys)) c xs
  rw [htake, htaken] at hparts
  rw [List.append_cancel_left hparts]

/-- A scan of tokens only, up to the end of one of them. -/
theorem scanFrom_cut (before behind : List Char) :
    ∀ xs ys, behind = xs ++ ys → Clean (scanFrom 0 (Utf8.size before) behind) →
      ∀ s ∈ spans (scanFrom 0 (Utf8.size before) behind), s.stop = Utf8.size (before ++ xs) →
      scanFrom 0 (Utf8.size before) behind =
        scanFrom 0 (Utf8.size before) xs ++ scanFrom 0 (Utf8.size (before ++ xs)) ys := by
  induction before, behind using item_induction with
  | nil before =>
      intro xs ys hxs hc s hs
      rw [scanFrom_nil] at hs
      cases hs
  | item before c cs ih =>
      intro xs ys hxs hc s hs hstop
      by_cases hys : ys = []
      · subst hys
        rw [hxs, scanFrom_nil, List.append_nil, List.append_nil]
      obtain ⟨hlo, hlt⟩ := (inOrder_scanFrom before (c :: cs)).1 s hs
      cases xs with
      | nil =>
          rw [List.append_nil] at hstop
          omega
      | cons x xs =>
      rw [List.cons_append] at hxs
      obtain ⟨rfl, rfl⟩ := List.cons.inj hxs
      have hscan := scanFrom_cons (Utf8.size before) c (xs ++ ys)
      rw [← Utf8.size_append] at hscan
      have hparts := Item.taken_append_left (Item.read (Utf8.size before) c (xs ++ ys)) c (xs ++ ys)
      have hclean := hc
      rw [hscan] at hs hclean
      rw [spans_append, List.mem_append] at hs
      rw [Utf8.size_append] at hstop
      -- The token stands in the first item, or behind it.
      rcases hs with hs | hs
      · obtain ⟨l, hl, hspan⟩ := mem_spans.mp hs
        rw [Item.span?_lexemes hl hspan, Span.behind] at hstop
        obtain ⟨htaken, hleft⟩ := eq_of_size_eq hparts (Nat.add_left_cancel hstop)
        have hmid := htaken.symm.trans (List.append_nil _).symm
        rw [scanFrom_cons_cut hc hmid hys, scanFrom_nil, List.append_nil, hscan, hleft, htaken]
      · have hrest := (inOrder_scanFrom _ _).1 s hs
        rw [Utf8.size_append] at hrest
        obtain ⟨mid, hmid, hleft⟩ := prefix_of_size_le (hparts.trans List.cons_append.symm)
          (by omega)
        have hrest := ih mid ys hleft (List.forall_mem_append.mp hclean).2 s hs
          (by rw [hstop, hmid]; simp only [Utf8.size_append, Nat.add_assoc])
        rw [scanFrom_cons_cut hc hmid hys, hscan, hrest, hmid]
        simp only [List.append_assoc]

/-- A text that does not start with a byte order mark is scanned from its first character on. -/
theorem scan_eq_scanFrom {text : List Char} (h : ∀ cs, text ≠ '\uFEFF' :: cs) :
    scan text = scanFrom 0 0 text := by
  unfold scan
  split
  · rename_i cs
    exact absurd rfl (h cs)
  · rfl

theorem not_clean_byteOrderMark (cs : List Char) : ¬ Clean (scanFrom 0 0 ('\uFEFF' :: cs)) := by
  intro hc
  rw [scanFrom_cons] at hc
  exact (Item.quiet_of_clean (List.forall_mem_append.mp hc).1).2 rfl

/-- **A source that is cut behind a token scans like the whole, up to there.** -/
theorem scan_cut {source pre post : List Char} (hsource : source = pre ++ post)
    (hc : Clean (scan source)) {t : Token} {s : Span} (hs : .token t s ∈ scan source)
    (hstop : s.stop = Utf8.size pre) :
    ∃ back, scan source = scan pre ++ back ∧
      (∀ a ∈ spans (scan pre), a.stop ≤ Utf8.size pre) ∧
      ∀ b ∈ spans back, Utf8.size pre ≤ b.start := by
  have hmem := mem_spans_of_token hs
  obtain ⟨before, behind, rfl, hscan, hmark⟩ := scan_eq source
  rw [hscan] at hc hmem
  have hbehind := (inOrder_scanFrom before behind).1 s hmem
  obtain ⟨xs, rfl, hys⟩ := prefix_of_size_le hsource (by omega)
  have hsplit := scanFrom_cut before behind xs post hys hc s hmem hstop
  have hpre : scan (before ++ xs) = scanFrom 0 (Utf8.size before) xs := by
    rcases hmark with rfl | rfl
    · refine scan_eq_scanFrom fun cs hxs => not_clean_byteOrderMark (cs ++ post) ?_
      rw [hys, ← List.nil_append xs, hxs] at hc
      exact hc
    · rfl
  refine ⟨scanFrom 0 (Utf8.size (before ++ xs)) post, by rw [hscan, hsplit, hpre], fun a ha => ?_,
    fun b hb => ((inOrder_scanFrom _ _).1 b hb).1⟩
  exact (fits_of_mem_scan ha).inside

/-! ### What stands between tokens -/

theorem Text.takeBytes_append_of_le {n : Nat} {as : List Char} (bs : List Char)
    (h : n ≤ Utf8.size as) : takeBytes n (as ++ bs) = takeBytes n as := by
  induction as generalizing n with
  | nil =>
      obtain rfl := Nat.le_zero.mp h
      cases bs <;> rfl
  | cons a as ih =>
      cases n with
      | zero => rfl
      | succ n =>
          rw [Utf8.size_cons] at h
          rw [List.cons_append, takeBytes, takeBytes, ih (by omega)]

/-- A slice that starts behind a token and ends before the cut is the same in both texts. -/
theorem slice_cut {pre : List Char} (post : List Char) {s : Span} (hs : s ∈ spans (scan pre))
    {n : Nat} (hn : n ≤ Utf8.size pre) :
    Text.slice (pre ++ post) ⟨s.stop, n⟩ = Text.slice pre ⟨s.stop, n⟩ := by
  obtain ⟨before, text, rest, -, rfl, rfl⟩ := behind_of_mem_scan hs
  have hstop : (Span.behind before text).stop = Utf8.size (before ++ text) :=
    (Utf8.size_append _ _).symm
  have hle : n - Utf8.size (before ++ text) ≤ Utf8.size rest := by
    rw [← List.append_assoc, Utf8.size_append] at hn
    omega
  unfold Text.slice
  rw [hstop, ← List.append_assoc, Text.dropBytes_append, List.append_assoc, Text.dropBytes_append]
  exact Text.takeBytes_append_of_le post hle

end ProtoSchema
