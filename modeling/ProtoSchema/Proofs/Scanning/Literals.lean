/-
String literals decode exactly.

A literal is read in one pass, and what is wrong with it is collected on the way: an invalid part
is joined to the run of invalid parts behind it.  Seen from outside there are the parts of the
literal, what ends it, and the runs of invalid parts among them, each as long as it can be and of
the kind of its first part.  `Literal` says this of a text, and every literal that is read is one
(`exists_literal`).

The induction is on the length of the text, from part to part.  A stretch of ordinary characters
is one part, but the reader takes them one by one; so they are taken together first.  The kinds of
invalid parts matter at one place only, where a part is put in front of others: a run that starts
at that very place goes on, and one that starts later does not.

All this is about one literal.  In a scan the notes on a literal stand directly in front of its
token, so they are never mixed up with those on another one.  A parse reports them as they are, in
the order of the scan.
-/
import ProtoSchema.Proofs.Parsing.Noted
import ProtoSchema.Proofs.Rendering.Spelling
import ProtoSchema.Proofs.Scanning.Parts
import ProtoSchema.Proofs.Scanning.Tiling

namespace ProtoSchema

/-! ### Literals -/

namespace LiteralPart

/-- How parts are written one behind the other. -/
def spelling (parts : List LiteralPart) : List Char := parts.flatMap chars

/-- Parts of a literal stand one behind the other before the rest of a text. -/
def Arranged (quote : Char) (rest : List Char) : List LiteralPart → Prop
  | [] => True
  | p :: ps => p.StandsBefore quote (spelling ps ++ rest) ∧ Arranged quote rest ps

/-- The runs of invalid parts among parts that start at an offset. -/
inductive Runs : (offset : Nat) → List LiteralPart → List QuotedFault → Prop
  | none {offset : Nat} : Runs offset [] []
  | valid {offset : Nat} {p : LiteralPart} {ps : List LiteralPart} {faults : List QuotedFault} :
      p.invalid? = .none → Runs (offset + Utf8.size p.chars) ps faults →
        Runs offset (p :: ps) faults
  /-- A run goes up to a valid part or the end, and is of the kind of its first part. -/
  | run {offset : Nat} {p : LiteralPart} {run ps : List LiteralPart} {faults : List QuotedFault}
      {isEscape : Bool} :
      p.invalid? = some isEscape → (∀ q ∈ run, q.invalid? ≠ .none) →
      (∀ q ∈ ps.head?, q.invalid? = .none) →
      Runs (offset + Utf8.size (spelling (p :: run))) ps faults →
        Runs offset (p :: (run ++ ps))
          (⟨isEscape, offset, offset + Utf8.size (spelling (p :: run))⟩ :: faults)

end LiteralPart

/-- What ends a literal, and what is left behind it. -/
inductive LiteralEnd (quote : Char) : (ending rest : List Char) → Prop
  | closed {rest : List Char} : LiteralEnd quote [quote] rest
  | lineFeed {rest : List Char} : LiteralEnd quote ['\n'] rest
  | endOfSource : LiteralEnd quote [] []

/-- A text starts with the parts of a literal, and what ends it. -/
structure Literal (quote : Char) (parts : List LiteralPart) (ending rest text : List Char) :
    Prop where
  text : text = LiteralPart.spelling parts ++ (ending ++ rest)
  parts : LiteralPart.Arranged quote (ending ++ rest) parts
  ending : LiteralEnd quote ending rest

namespace LiteralPart

theorem spelling_cons (p : LiteralPart) (ps : List LiteralPart) :
    spelling (p :: ps) = p.chars ++ spelling ps := List.flatMap_cons

theorem chars_ne_nil {quote : Char} {rest : List Char} {p : LiteralPart}
    (h : p.StandsBefore quote rest) : p.chars ≠ [] := by
  cases p with
  | text run => exact h.1
  | otherQuote c => exact List.cons_ne_nil _ _
  | escape cs bs =>
      obtain ⟨ds, rfl, -⟩ := h.1.eq_cons
      exact List.cons_ne_nil _ _
  | nul => exact List.cons_ne_nil _ _
  | backslash => exact List.cons_ne_nil _ _
  | valueless cs =>
      obtain ⟨ds, rfl, -⟩ := h.1.eq_cons
      exact List.cons_ne_nil _ _

namespace Runs

variable {offset : Nat} {p : LiteralPart} {ps : List LiteralPart} {faults : List QuotedFault}

theorem le_start (h : Runs offset ps faults) : ∀ f ∈ faults, offset ≤ f.span.start := by
  induction h with
  | none => intro f hf; cases hf
  | valid _ _ ih =>
      intro f hf
      have := ih f hf
      omega
  | run _ _ _ _ ih =>
      intro f hf
      rcases List.mem_cons.mp hf with rfl | hf
      · exact Nat.le_refl _
      · have := ih f hf
        omega

/-- An invalid part starts a run of its kind. -/
theorem of_invalid {isEscape : Bool} (h : Runs offset (p :: ps) faults)
    (hp : p.invalid? = some isEscape) :
    ∃ run rest later, ps = run ++ rest ∧ (∀ q ∈ run, q.invalid? ≠ .none) ∧
      (∀ q ∈ rest.head?, q.invalid? = .none) ∧
      Runs (offset + Utf8.size (spelling (p :: run))) rest later ∧
      faults = ⟨isEscape, offset, offset + Utf8.size (spelling (p :: run))⟩ :: later := by
  cases h with
  | valid hvalid _ =>
      rw [hp] at hvalid
      cases hvalid
  | run hinvalid hrun hrest hlater =>
      rw [hp] at hinvalid
      obtain rfl := Option.some.inj hinvalid
      exact ⟨_, _, _, rfl, hrun, hrest, hlater, rfl⟩

/-- An invalid part is a run of its own, unless the next part is invalid. -/
theorem alone {isEscape : Bool} (hp : p.invalid? = some isEscape)
    (hps : ∀ p' ∈ ps.head?, p'.invalid? = .none)
    (h : Runs (offset + Utf8.size p.chars) ps faults) :
    Runs offset (p :: ps) (⟨isEscape, offset, offset + Utf8.size p.chars⟩ :: faults) := by
  have hspelling : spelling [p] = p.chars := List.append_nil _
  have hrun : Runs offset (p :: ([] ++ ps)) _ :=
    .run hp (fun _ hq => absurd hq List.not_mem_nil) hps (hspelling.symm ▸ h)
  rwa [hspelling] at hrun

/-- An invalid part in front of another one joins its run. -/
theorem join {isEscape isEscape' : Bool} {p' : LiteralPart} {run rest : List LiteralPart}
    (hp : p.invalid? = some isEscape) (hp' : p'.invalid? = some isEscape')
    (hrun : ∀ q ∈ run, q.invalid? ≠ .none) (hrest : ∀ q ∈ rest.head?, q.invalid? = .none)
    (h : Runs (offset + Utf8.size (spelling (p :: p' :: run))) rest faults) :
    Runs offset (p :: p' :: (run ++ rest))
      (⟨isEscape, offset, offset + Utf8.size (spelling (p :: p' :: run))⟩ :: faults) := by
  rw [← List.cons_append]
  refine .run hp ?_ hrest h
  intro r hr
  rcases List.mem_cons.mp hr with rfl | hr
  · rw [hp']
    exact Option.some_ne_none _
  · exact hrun r hr

/-- An invalid part in front of others joins the run that starts behind it, if one does. -/
theorem cons {isEscape : Bool} {q : Quoted} (hp : p.invalid? = some isEscape)
    (hps : ∀ p' ∈ ps.head?, p'.chars ≠ []) (hfaults : q.faults = faults)
    (h : Runs (offset + Utf8.size p.chars) ps faults) :
    Runs offset (p :: ps)
      (q.addFault ⟨isEscape, offset, offset + Utf8.size p.chars⟩).faults := by
  unfold Quoted.addFault
  rw [hfaults]
  cases ps with
  | nil =>
      cases h
      exact alone hp nofun .none
  | cons p' ps =>
      cases hp' : p'.invalid? with
      | none =>
          have halone := alone hp (by rintro _ ⟨⟩; exact hp') h
          cases h with
          | run hinvalid _ _ _ =>
              rw [hp'] at hinvalid
              cases hinvalid
          | valid _ hrest =>
              have hpos : 0 < Utf8.size p'.chars := Utf8.size_pos (hps p' rfl)
              cases faults with
              | nil => exact halone
              | cons f fs =>
                  -- The next run starts behind the valid part, so it is not joined.
                  have hstart := hrest.le_start f List.mem_cons_self
                  dsimp only
                  rw [if_neg (by omega)]
                  exact halone
      | some isEscape' =>
          obtain ⟨run, rest, later, rfl, hrun, hrest, hlater, rfl⟩ := h.of_invalid hp'
          have hsize : offset + Utf8.size p.chars + Utf8.size (spelling (p' :: run)) =
              offset + Utf8.size (spelling (p :: p' :: run)) := by
            rw [spelling_cons p, Utf8.size_append, Nat.add_assoc]
          rw [hsize] at hlater
          dsimp only
          rw [if_pos rfl, hsize]
          exact join hp hp' hrun hrest hlater

end Runs

theorem bytes_of_invalid {isEscape : Bool} {p : LiteralPart} (h : p.invalid? = some isEscape) :
    p.bytes = [] := by
  cases p with
  | text run => cases h
  | otherQuote c => cases h
  | escape cs bs => cases h
  | nul => rfl
  | backslash => rfl
  | valueless cs => rfl

end LiteralPart

/-- A part in front of a literal. -/
theorem Literal.cons {quote : Char} {p : LiteralPart} {parts : List LiteralPart}
    {ending rest text : List Char} (hp : p.StandsBefore quote text)
    (h : Literal quote parts ending rest text) :
    Literal quote (p :: parts) ending rest (p.chars ++ text) where
  text := by rw [LiteralPart.spelling_cons, List.append_assoc, ← h.text]
  parts := ⟨h.text ▸ hp, h.parts⟩
  ending := h.ending

/-! ### Reading -/

namespace Quoted

open LiteralPart

/-- What is read of a literal with these parts and this end. -/
structure Reads (q : Quoted) (quote : Char) (offset : Nat) (parts : List LiteralPart)
    (ending : List Char) : Prop where
  bytes : q.bytes = parts.flatMap LiteralPart.bytes
  faults : Runs offset parts q.faults
  cutAt : q.cutAt = if ending = [quote] then none else some (offset + Utf8.size (spelling parts))
  width : q.width = (spelling parts ++ ending).length

/-- What is read with a part in front that starts at an offset. -/
def addPart (offset : Nat) (p : LiteralPart) (q : Quoted) : Quoted :=
  { (match p.invalid? with
      | none => q.addBytes p.bytes
      | some isEscape => q.addFault ⟨isEscape, offset, offset + Utf8.size p.chars⟩) with
    width := q.width + p.chars.length }

theorem bytes_addFault (fault : QuotedFault) (q : Quoted) : (q.addFault fault).bytes = q.bytes := by
  unfold addFault
  split
  · split
    · rfl
    · rfl
  · rfl

theorem cutAt_addFault (fault : QuotedFault) (q : Quoted) : (q.addFault fault).cutAt = q.cutAt := by
  unfold addFault
  split
  · split
    · rfl
    · rfl
  · rfl

theorem addFault_withWidth (fault : QuotedFault) (q : Quoted) (n : Nat) :
    addFault fault { q with width := n } = { addFault fault q with width := n } := by
  unfold addFault
  dsimp only
  split
  · split
    · rfl
    · rfl
  · rfl

/-- A part in front of a literal is read in front of it. -/
theorem Reads.addPart {q : Quoted} {quote : Char} {offset : Nat} {p : LiteralPart}
    {ps : List LiteralPart} {ending rest : List Char}
    (h : q.Reads quote (offset + Utf8.size p.chars) ps ending) (hps : Arranged quote rest ps) :
    (q.addPart offset p).Reads quote offset (p :: ps) ending := by
  have hcut : (if ending = [quote] then none
        else some (offset + Utf8.size p.chars + Utf8.size (spelling ps))) =
      if ending = [quote] then none else some (offset + Utf8.size (spelling (p :: ps))) := by
    rw [spelling_cons, Utf8.size_append, Nat.add_assoc]
  have hwidth : q.width + p.chars.length = (spelling (p :: ps) ++ ending).length := by
    rw [h.width, spelling_cons, List.append_assoc, List.length_append, List.length_append,
      List.length_append, Nat.add_comm]
  unfold Quoted.addPart
  cases hp : p.invalid? with
  | none =>
      exact
        { bytes := by
            show p.bytes ++ q.bytes = _
            rw [h.bytes, List.flatMap_cons]
          faults := .valid hp h.faults
          cutAt := h.cutAt.trans hcut
          width := hwidth }
  | some isEscape =>
      have hhead : ∀ p' ∈ ps.head?, p'.chars ≠ [] := by
        intro p' hp'
        cases ps with
        | nil => cases hp'
        | cons r rs =>
            cases hp'
            exact chars_ne_nil hps.1
      exact
        { bytes := by
            show (q.addFault _).bytes = _
            rw [bytes_addFault, h.bytes, List.flatMap_cons, bytes_of_invalid hp, List.nil_append]
          faults := .cons hp hhead rfl h.faults
          cutAt := by
            show (q.addFault _).cutAt = _
            rw [cutAt_addFault, h.cutAt, hcut]
          width := hwidth }

variable {quote : Char} {offset : Nat}

/-- What is read at a character that starts a valid part. -/
theorem readFrom_bytes {c : Char} {behind rest : List Char} {bs : List UInt8}
    (h : QuotedPart.read c (behind ++ rest) = (.bytes bs, behind.length + 1)) :
    readFrom quote 0 offset (c :: (behind ++ rest)) =
      { (readFrom quote 0 (offset + Utf8.size (c :: behind)) rest).addBytes bs with
        width := (readFrom quote 0 (offset + Utf8.size (c :: behind)) rest).width +
          (c :: behind).length } := by
  rw [readFrom, h]
  show ((readFrom quote behind.length (offset + c.utf8Size) (behind ++ rest)).addBytes bs).widen = _
  rw [readFrom_skip, Utf8.size_cons, ← Nat.add_assoc]
  rfl

/-- What is read at a character that is a valid part. -/
theorem readFrom_char {c : Char} {rest : List Char} {bs : List UInt8}
    (h : QuotedPart.read c rest = (.bytes bs, 1)) :
    readFrom quote 0 offset (c :: rest) =
      { (readFrom quote 0 (offset + c.utf8Size) rest).addBytes bs with
        width := (readFrom quote 0 (offset + c.utf8Size) rest).width + 1 } :=
  @readFrom_bytes quote offset c [] rest bs h

/-- What is read at a character that starts an invalid part. -/
theorem readFrom_invalid {c : Char} (behind : List Char) {rest : List Char} (isEscape : Bool)
    (h : QuotedPart.read c (behind ++ rest) =
      (if isEscape then .invalidEscape else .invalidCharacter, behind.length + 1)) :
    readFrom quote 0 offset (c :: (behind ++ rest)) =
      { (readFrom quote 0 (offset + Utf8.size (c :: behind)) rest).addFault
          ⟨isEscape, offset, offset + Utf8.size (c :: behind)⟩ with
        width := (readFrom quote 0 (offset + Utf8.size (c :: behind)) rest).width +
          (c :: behind).length } := by
  have htake : (c :: (behind ++ rest)).take (behind.length + 1) = c :: behind := by
    rw [List.take_succ_cons, List.take_left]
  have hfault : readFrom quote 0 offset (c :: (behind ++ rest)) =
      ((readFrom quote behind.length (offset + c.utf8Size) (behind ++ rest)).addFault
        ⟨isEscape, offset, offset + Utf8.size (c :: behind)⟩).widen := by
    rw [readFrom, h, ← htake]
    cases isEscape with
    | true => rfl
    | false => rfl
  rw [hfault, readFrom_skip, addFault_withWidth, Utf8.size_cons, ← Nat.add_assoc]
  rfl

/-! ### From part to part -/

/-- An ordinary character is read as itself. -/
theorem read_ordinary {c : Char} (hc : IsOrdinary c) (cs : List Char) :
    QuotedPart.read c cs = (.bytes (String.utf8EncodeChar c), 1) := by
  obtain ⟨hbackslash, hsingle, hdouble, hline, hnul⟩ := hc
  unfold QuotedPart.read
  rw [if_neg hbackslash, if_neg (by rintro (h | h); exacts [hsingle h, hdouble h]), if_neg hline,
    if_neg hnul]

/-- Ordinary characters are read one by one, but make one part. -/
theorem readFrom_run (quote : Char) (run rest : List Char) (hrun : ∀ c ∈ run, IsOrdinary c) :
    ∀ offset, readFrom quote 0 offset (run ++ rest) =
      (readFrom quote 0 (offset + Utf8.size run) rest).addPart offset (.text run) := by
  induction run with
  | nil => intro offset; rfl
  | cons c run ih =>
      intro offset
      obtain ⟨hc, hrun⟩ := List.forall_mem_cons.mp hrun
      rw [List.cons_append, readFrom_char (read_ordinary hc (run ++ rest)), ih hrun, Utf8.size_cons,
        ← Nat.add_assoc]
      unfold addPart addBytes
      simp only [LiteralPart.invalid?, LiteralPart.bytes, LiteralPart.chars, Utf8.encode_cons,
        List.append_assoc, List.length_cons, Nat.add_assoc]

/-- The ordinary characters at the front of a text, as many as there are. -/
theorem exists_run {c : Char} (hc : IsOrdinary c) (cs : List Char) :
    ∃ run rest, (∀ c ∈ run, IsOrdinary c) ∧ c :: cs = run ++ rest ∧ run ≠ [] ∧
      ∀ c ∈ rest.head?, ¬IsOrdinary c := by
  refine ⟨(c :: cs).takeWhile fun c => IsOrdinary c, (c :: cs).dropWhile fun c => IsOrdinary c,
    ?_, List.takeWhile_append_dropWhile.symm, ?_, ?_⟩
  · intro d hd
    simpa using List.mem_takeWhile_imp hd
  · rw [List.takeWhile_cons, if_pos (decide_eq_true hc)]
    exact List.cons_ne_nil _ _
  · intro d hd
    have hfirst := List.head?_dropWhile_not (fun c => decide (IsOrdinary c)) (c :: cs)
    rw [hd] at hfirst
    simpa using hfirst

/-- A text starts with a part of a literal, and is read as that part and then the rest. -/
def StartsWithPart (quote c : Char) (cs : List Char) : Prop :=
  ∃ (p : LiteralPart) (text : List Char), c :: cs = p.chars ++ text ∧ p.StandsBefore quote text ∧
    ∀ offset, readFrom quote 0 offset (c :: cs) =
      (readFrom quote 0 (offset + Utf8.size p.chars) text).addPart offset p

theorem startsWithPart_backslash (quote : Char) (cs : List Char) :
    StartsWithPart quote '\\' cs := by
  obtain ⟨p, behind, rest, rfl, hchars, hp, hwidth, hpart⟩ :=
    QuotedPart.exists_part_of_backslash quote cs
  have hread : QuotedPart.read '\\' (behind ++ rest) =
      ((QuotedPart.readEscape (behind ++ rest)).1, behind.length + 1) := by
    rw [hchars] at hwidth
    exact Prod.ext rfl hwidth
  refine ⟨p, rest, by rw [hchars]; rfl, hp, fun offset => ?_⟩
  unfold addPart
  rw [hchars]
  cases hinvalid : p.invalid? with
  | none =>
      rw [hinvalid] at hpart
      rw [hpart] at hread
      exact readFrom_bytes hread
  | some isEscape =>
      rw [hinvalid] at hpart
      obtain ⟨rfl, hpart, -⟩ := hpart
      rw [hpart] at hread
      exact readFrom_invalid behind true hread

theorem startsWithPart_otherQuote {quote c : Char} (hc : c = '\'' ∨ c = '"') (hown : c ≠ quote)
    (cs : List Char) : StartsWithPart quote c cs := by
  refine ⟨.otherQuote c, cs, rfl, ⟨hc, hown⟩, fun offset => ?_⟩
  have hread : QuotedPart.read c cs = (.quote c, 1) := by
    rcases hc with rfl | rfl <;> rfl
  rw [readFrom, hread]
  dsimp only
  rw [if_neg hown]
  unfold addPart
  simp only [LiteralPart.invalid?, LiteralPart.bytes, LiteralPart.chars, Utf8.encode_cons,
    Utf8.encode_nil, List.append_nil]
  rfl

theorem startsWithPart_ordinary (quote : Char) {c : Char} (hc : IsOrdinary c) (cs : List Char) :
    StartsWithPart quote c cs := by
  obtain ⟨run, rest, hrun, hsplit, hfirst, hrest⟩ := exists_run hc cs
  refine ⟨.text run, rest, hsplit, ⟨hfirst, hrun, hrest⟩, fun offset => ?_⟩
  rw [hsplit]
  exact readFrom_run quote run rest hrun offset

/-- A text starts with the end of a literal, or with a part. -/
theorem startsWithPart (quote c : Char) (cs : List Char) :
    c = quote ∨ c = '\n' ∨ StartsWithPart quote c cs := by
  by_cases hown : c = quote
  · exact .inl hown
  by_cases hline : c = '\n'
  · exact .inr (.inl hline)
  refine .inr (.inr ?_)
  by_cases hbackslash : c = '\\'
  · rw [hbackslash]
    exact startsWithPart_backslash quote cs
  by_cases hother : c = '\'' ∨ c = '"'
  · exact startsWithPart_otherQuote hother hown cs
  by_cases hnul : c = '\x00'
  · rw [hnul]
    exact ⟨.nul, cs, rfl, trivial, fun offset => readFrom_invalid [] false rfl⟩
  exact startsWithPart_ordinary quote
    ⟨hbackslash, fun h => hother (.inl h), fun h => hother (.inr h), hline, hnul⟩ cs

theorem readFrom_closed {quote : Char} (hquote : quote = '\'' ∨ quote = '"') (offset : Nat)
    (cs : List Char) : readFrom quote 0 offset (quote :: cs) = ⟨[], [], none, 1⟩ := by
  have hpart : QuotedPart.read quote cs = (.quote quote, 1) := by
    rcases hquote with rfl | rfl <;> rfl
  rw [readFrom, hpart]
  exact if_pos rfl

theorem readFrom_lineFeed (quote : Char) (offset : Nat) (cs : List Char) :
    readFrom quote 0 offset ('\n' :: cs) = ⟨[], [], some offset, 1⟩ := by
  have hpart : QuotedPart.read '\n' cs = (.lineFeed, 1) := rfl
  rw [readFrom, hpart]

/-- **What is read behind an opening quote is a literal, part by part.** -/
theorem exists_literal (quote : Char) (hquote : quote = '\'' ∨ quote = '"') (text : List Char) :
    ∀ offset, ∃ parts ending rest, Literal quote parts ending rest text ∧
      (readFrom quote 0 offset text).Reads quote offset parts ending := by
  induction h : text.length using Nat.strongRecOn generalizing text with
  | ind n ih =>
      intro offset
      cases text with
      | nil =>
          refine ⟨[], [], [], ⟨rfl, trivial, .endOfSource⟩, ⟨rfl, .none, ?_, rfl⟩⟩
          rw [if_neg (List.cons_ne_nil quote []).symm]
          rfl
      | cons c cs =>
          rcases startsWithPart quote c cs with rfl | rfl | ⟨p, rest, hsplit, hp, hread⟩
          · rw [readFrom_closed hquote]
            exact ⟨[], [c], cs, ⟨rfl, trivial, .closed⟩, rfl, .none, (if_pos rfl).symm, rfl⟩
          · have hopen : ['\n'] ≠ [quote] := by
              rcases hquote with rfl | rfl <;> decide
            rw [readFrom_lineFeed]
            exact ⟨[], ['\n'], cs, ⟨rfl, trivial, .lineFeed⟩, rfl, .none, (if_neg hopen).symm, rfl⟩
          · have hlen : rest.length < n := by
              have hne := List.length_pos_iff.mpr (LiteralPart.chars_ne_nil hp)
              have hsum := congrArg List.length hsplit
              rw [List.length_append, h] at hsum
              omega
            obtain ⟨parts, ending, behind, hliteral, hreads⟩ :=
              ih _ hlen rest rfl (offset + Utf8.size p.chars)
            rw [hread, hsplit]
            exact ⟨p :: parts, ending, behind, hliteral.cons hp, hreads.addPart hliteral.parts⟩

end Quoted

/-! ### Literals in a scan -/

/-- Only a comment that never ends is blank and something to report, and it takes all the rest. -/
theorem Item.left_of_notes {offset : Nat} {c : Char} {cs : List Char}
    (hblank : (read offset c cs).reading = .blank) (hnotes : (read offset c cs).notes ≠ []) :
    (read offset c cs).left c cs = [] := by
  rcases reading_eq_blank hblank with ⟨-, hread⟩ | ⟨rfl, hread⟩
  · rw [hread] at hnotes
    exact absurd rfl hnotes
  · rw [hread] at hnotes ⊢
    unfold readSlash at hnotes ⊢
    split at hnotes
    · exact absurd rfl hnotes
    · split at hnotes
      · exact absurd rfl hnotes
      · exact List.drop_eq_nil_of_le (by simp only [List.length_cons]; omega)
    · exact absurd rfl hnotes

/-- What an item contributes ends with a lexeme that is no note, unless it is blank. -/
theorem Item.getLast?_lexemes {item : Item} {offset : Nat} {c : Char} {cs : List Char}
    (h : item.reading ≠ .blank) : ∀ l ∈ (item.lexemes offset c cs).getLast?, l.note? = none := by
  intro l hl
  unfold lexemes at hl
  cases hreading : item.reading with
  | blank => exact absurd hreading h
  | token t =>
      rw [hreading] at hl
      simp only [List.getLast?_concat] at hl
      cases hl
      rfl
  | illegal =>
      rw [hreading] at hl
      simp only [List.getLast?_concat] at hl
      cases hl
      rfl

/-- A token is read from an item of a text, and the lexemes before it end with the notes on it. -/
structure TokenAt (text : List Char) (t : Token) (span : Span) (pre : List Lexeme)
    (before : List Char) (c : Char) (cs : List Char) : Prop where
  text : text = before ++ c :: cs
  reading : (Item.read (Utf8.size before) c cs).reading = .token t
  span : span = .behind before ((Item.read (Utf8.size before) c cs).taken c cs)
  /-- The lexeme before the notes, if there is one, is no note on something else. -/
  notes : ∃ earlier, pre = earlier ++ (Item.read (Utf8.size before) c cs).notes.map .note ∧
    ∀ l ∈ earlier.getLast?, l.note? = none

section Items

variable {t : Token} {span : Span} {before cs : List Char} {c : Char} {pre post : List Lexeme}

/-- A token among what an item contributes is at the start of that item. -/
theorem tokenAt_of_lexemes
    (h : (Item.read (Utf8.size before) c cs).lexemes (Utf8.size before) c cs =
      pre ++ .token t span :: post) :
    TokenAt (before ++ c :: cs) t span pre before c cs := by
  have hmem : .token t span ∈
      (Item.read (Utf8.size before) c cs).lexemes (Utf8.size before) c cs := by
    rw [h]
    exact List.mem_append_right _ List.mem_cons_self
  have hspan := Item.span?_lexemes hmem rfl
  rcases Item.mem_lexemes hmem with ⟨d, -, hd⟩ | ⟨u, s, hreading, hu⟩ | ⟨s, -, hd⟩
  · cases hd
  · cases hu
    refine ⟨rfl, hreading, hspan, [], ?_, fun l hl => by cases hl⟩
    unfold Item.lexemes at h
    rw [hreading] at h
    rw [List.nil_append]
    -- The token is the last lexeme of the item, and notes stand before it.
    rcases List.eq_nil_or_concat post with rfl | ⟨own, z, rfl⟩
    · exact (List.append_inj' h rfl).1.symm
    · rw [List.concat_eq_append, ← List.cons_append, ← List.append_assoc] at h
      have hnote := (List.append_inj' h rfl).1 ▸ List.mem_append_right pre List.mem_cons_self
      obtain ⟨d, -, hd⟩ := List.mem_map.mp hnote
      cases hd
  · cases hd

/-- An item with something behind it contributes no note as its last lexeme. -/
theorem getLast?_lexemes_of_scanFrom {offset : Nat} {l : Lexeme}
    (h : scanFrom 0 offset ((Item.read (Utf8.size before) c cs).left c cs) =
      pre ++ .token t span :: post)
    (hl : l ∈ ((Item.read (Utf8.size before) c cs).lexemes (Utf8.size before) c cs).getLast?) :
    l.note? = none := by
  by_cases hblank : (Item.read (Utf8.size before) c cs).reading = .blank
  · by_cases hnotes : (Item.read (Utf8.size before) c cs).notes = []
    · unfold Item.lexemes at hl
      rw [hblank, hnotes] at hl
      cases hl
    · rw [Item.left_of_notes hblank hnotes, scanFrom_nil] at h
      exact absurd (List.append_eq_nil_iff.mp h.symm).2 (List.cons_ne_nil _ _)
  · exact Item.getLast?_lexemes hblank l hl

/-- A token in the scan of the rest is where it is found there. -/
theorem TokenAt.behind {as ds : List Char} {d : Char} {offset : Nat}
    (hscan : scanFrom 0 offset ((Item.read (Utf8.size before) c cs).left c cs) =
      pre ++ .token t span :: post)
    (h : TokenAt (before ++ (Item.read (Utf8.size before) c cs).taken c cs ++
      (Item.read (Utf8.size before) c cs).left c cs) t span pre as d ds) :
    TokenAt (before ++ c :: cs) t span
      ((Item.read (Utf8.size before) c cs).lexemes (Utf8.size before) c cs ++ pre) as d ds := by
  obtain ⟨hd, hreading, hspan, earlier, rfl, hearlier⟩ := h
  rw [List.append_assoc, Item.taken_append_left] at hd
  refine ⟨hd, hreading, hspan, _, (List.append_assoc _ _ _).symm, ?_⟩
  intro l hl
  rw [List.getLast?_append] at hl
  cases hlast : earlier.getLast? with
  | some l' =>
      rw [hlast] at hl
      cases hl
      exact hearlier l hlast
  | none =>
      rw [hlast] at hl
      exact getLast?_lexemes_of_scanFrom hscan hl

end Items

theorem exists_tokenAt_of_scanFrom {t : Token} {span : Span} {post : List Lexeme}
    (before behind : List Char) : ∀ pre : List Lexeme,
    scanFrom 0 (Utf8.size before) behind = pre ++ .token t span :: post →
      ∃ as c cs, TokenAt (before ++ behind) t span pre as c cs := by
  induction before, behind using item_induction with
  | nil before =>
      intro pre h
      rw [scanFrom_nil] at h
      exact absurd (List.append_eq_nil_iff.mp h.symm).2 (List.cons_ne_nil _ _)
  | item before c cs ih =>
      intro pre h
      rw [scanFrom_cons, ← Utf8.size_append] at h
      have hbehind (pre' : List Lexeme) (hrest : scanFrom 0
            (Utf8.size (before ++ (Item.read (Utf8.size before) c cs).taken c cs))
            ((Item.read (Utf8.size before) c cs).left c cs) = pre' ++ .token t span :: post) :
          ∃ as d ds, TokenAt (before ++ c :: cs) t span
            ((Item.read (Utf8.size before) c cs).lexemes (Utf8.size before) c cs ++ pre')
            as d ds := by
        obtain ⟨as, d, ds, hd⟩ := ih pre' hrest
        exact ⟨as, d, ds, hd.behind hrest⟩
      rcases List.append_eq_append_iff.mp h with ⟨pre', rfl, hrest⟩ | ⟨own, hown, hpost⟩
      · exact hbehind pre' hrest
      · cases own with
        | nil =>
            rw [List.append_nil] at hown
            have hfound := hbehind [] hpost.symm
            rwa [List.append_nil, hown] at hfound
        | cons l own =>
            obtain ⟨rfl, -⟩ := List.cons.inj hpost
            exact ⟨before, c, cs, tokenAt_of_lexemes hown⟩

/-- Only a quote starts a string. -/
theorem Item.read_of_string {offset : Nat} {c : Char} {cs : List Char} {bytes : List UInt8}
    (h : (read offset c cs).reading = .token (.string bytes)) :
    (c = '\'' ∨ c = '"') ∧ read offset c cs =
      ⟨.token (.string bytes), 1 + (Quoted.readFrom c 0 (offset + 1) cs).width,
        (Quoted.readFrom c 0 (offset + 1) cs).diagnostics offset⟩ ∧
      bytes = (Quoted.readFrom c 0 (offset + 1) cs).bytes := by
  -- Of all kinds of items only a literal gives a token with bytes.
  rcases read_cases offset c cs with ⟨-, hr⟩ | ⟨-, hr⟩ | ⟨-, hr⟩ | ⟨hc, hr⟩ | ⟨-, hr⟩ | ⟨p, -, hr⟩ |
    ⟨-, hr⟩
  · rw [hr] at h
    cases h
  · rw [hr] at h
    cases h
  · rw [hr] at h
    unfold readNumeral at h
    rcases hn : Numeral.read (c :: cs) with ⟨_ | _ | _, width⟩
    · rw [hn] at h
      cases h
    · rw [hn] at h
      cases h
    · rw [hn] at h
      cases h
  · rw [hr] at h
    cases h
    exact ⟨hc, hr, rfl⟩
  · rw [hr] at h
    unfold readSlash at h
    split at h
    · cases h
    · split at h <;> cases h
    · cases h
  · rw [hr] at h
    cases h
  · rw [hr] at h
    cases h

/--
A string token of a scan, given what stands before it in the scan: the source has an opening quote
there, and behind it a literal.
-/
structure ScannedString (source : List Char) (pre : List Lexeme) (bytes : List UInt8) (span : Span)
    (before : List Char) (quote : Char) (parts : List LiteralPart) (ending rest : List Char) :
    Prop where
  isQuote : quote = '\'' ∨ quote = '"'
  source : ∃ text, source = before ++ quote :: text ∧ Literal quote parts ending rest text
  /-- The token goes from its opening quote to what ends it. -/
  span : span = .behind before (quote :: (LiteralPart.spelling parts ++ ending))
  bytes : bytes = parts.flatMap LiteralPart.bytes
  /-- The notes on the literal stand right before its token, and behind no other note. -/
  notes : ∃ faults earlier, LiteralPart.Runs (Utf8.size before + 1) parts faults ∧
    pre = earlier ++ (faults.map QuotedFault.diagnostic ++
      if ending = [quote] then []
      else [Diagnostic.unterminatedString
        (.behind before (quote :: LiteralPart.spelling parts))]).map .note ∧
    ∀ l ∈ earlier.getLast?, l.note? = none

/-- What ends a literal, and what is noted on it, follow from how it is read. -/
theorem scannedString_of_tokenAt {source before text : List Char} {pre : List Lexeme}
    {bytes : List UInt8} {span : Span} {quote : Char}
    (h : TokenAt source (.string bytes) span pre before quote text) :
    ∃ parts ending rest, ScannedString source pre bytes span before quote parts ending rest := by
  obtain ⟨htext, hreading, rfl, earlier, hpre, hearlier⟩ := h
  obtain ⟨hquote, hitem, rfl⟩ := Item.read_of_string hreading
  obtain ⟨parts, ending, rest, hliteral, hbytes, hfaults, hcut, hwidth⟩ :=
    Quoted.exists_literal quote hquote text (Utf8.size before + 1)
  have hsize : quote.utf8Size = 1 := by
    rcases hquote with rfl | rfl <;> rfl
  have htaken : (Item.read (Utf8.size before) quote text).taken quote text =
      quote :: (LiteralPart.spelling parts ++ ending) := by
    refine Item.taken_eq _ rest ?_ ?_
    · rw [List.cons_append, List.append_assoc, ← hliteral.text]
    · rw [hitem, List.length_cons, ← hwidth]
      exact Nat.add_comm 1 _
  have hcutSpan : Span.behind before (quote :: LiteralPart.spelling parts) =
      ⟨Utf8.size before, Utf8.size before + 1 + Utf8.size (LiteralPart.spelling parts)⟩ := by
    unfold Span.behind
    rw [Utf8.size_cons, hsize, Nat.add_assoc]
  refine ⟨parts, ending, rest, hquote, ⟨text, htext, hliteral⟩, by rw [htaken], hbytes, _, earlier,
    hfaults, ?_, hearlier⟩
  rw [hpre, hitem]
  unfold Quoted.diagnostics
  rw [hcut, hcutSpan]
  by_cases hclosed : ending = [quote]
  · rw [if_pos hclosed, if_pos hclosed]
  · rw [if_neg hclosed, if_neg hclosed]

/--
**String literals decode exactly.**  Wherever a scan has a string token, the source has an opening
quote with the parts of a literal behind it, up to its own quote, a line feed, or the end of the
source.  The token covers all this and has the bytes of the parts.  Directly in front of it the
scan notes the runs of invalid parts, and that the literal is cut short, if it is; and of what
parsing reports, these notes follow on those before them, and come before those behind the token.
-/
theorem literal_of_scan {source : List Char} {pre post : List Lexeme} {bytes : List UInt8}
    {span : Span} (h : scan source = pre ++ .token (.string bytes) span :: post) :
    (∃ before quote parts ending rest,
      ScannedString source pre bytes span before quote parts ending rest) ∧
      notesAmong (parseFile source).diagnostics =
        notesAmong (pre.filterMap Lexeme.note?) ++ notesAmong (post.filterMap Lexeme.note?) := by
  refine ⟨?_, ?_⟩
  · obtain ⟨mark, behind, rfl, hscan, -⟩ := scan_eq source
    rw [hscan] at h
    obtain ⟨before, quote, text, htoken⟩ := exists_tokenAt_of_scanFrom mark behind pre h
    exact ⟨before, quote, scannedString_of_tokenAt htoken⟩
  · rw [notes_of_parseFile, h, List.filterMap_append, notesAmong_append]
    rfl

/-- Behind a literal, one that starts with invalid parts, and that a line feed cuts short. -/
def cutText : String := "'ok' \"\\400\\qa\n"

theorem literal_of_scan_cut :
    scan cutText.toList =
        [.token (.string [111, 107]) ⟨0, 4⟩, .note (.invalidStringEscape ⟨6, 11⟩),
          .note (.unterminatedString ⟨5, 13⟩)] ++ .token (.string [113, 97]) ⟨5, 14⟩ :: [] ∧
      (∃ before quote parts ending rest,
        ScannedString cutText.toList
          [.token (.string [111, 107]) ⟨0, 4⟩, .note (.invalidStringEscape ⟨6, 11⟩),
            .note (.unterminatedString ⟨5, 13⟩)]
          [113, 97] ⟨5, 14⟩ before quote parts ending rest) ∧
      notesAmong (parseFile cutText.toList).diagnostics =
        [.invalidStringEscape ⟨6, 11⟩, .unterminatedString ⟨5, 13⟩] := by
  have hscan : scan cutText.toList =
      [.token (.string [111, 107]) ⟨0, 4⟩, .note (.invalidStringEscape ⟨6, 11⟩),
        .note (.unterminatedString ⟨5, 13⟩)] ++ .token (.string [113, 97]) ⟨5, 14⟩ :: [] := by
    decide +kernel
  exact ⟨hscan, literal_of_scan hscan⟩

end ProtoSchema
