/-
Integers that touch a word.

An integer literal must not touch the word behind it, and where one does, the scanner notes the
place of both together.  It does so when it makes out the value of the digits.  A lone zero has no
digits to look at, and is read without this step, so a word may touch it and nothing is noted; so
it is with a zero that takes eights and nines with it.

What is noted is therefore told by the integer literals and by the characters behind them: for each
of them but these zeros, in their order, there is a note if a word starts where the literal ends,
and it reaches to the end of that word (`touching_exact`).  Items are gone through one by one, and
each is in agreement by itself.  A parser passes notes on as they are, and neither it nor any check
makes one of its own, so what is found in a report is the same up to order.
-/
import ProtoSchema.Proofs.Positions.Reports
import ProtoSchema.Proofs.Scanning.Integers

namespace ProtoSchema

/-- The place that a diagnostic is about, if it is about a word that touches an integer. -/
def Diagnostic.touching? : Diagnostic → Option Span
  | noSpaceBetweenIntAndIdent s => some s
  | _ => none

/-- The places of words that touch integers, among those of some diagnostics. -/
def touchingAmong (ds : List Diagnostic) : List Span := ds.filterMap Diagnostic.touching?

/-- The place of an integer literal, if a lexeme is one. -/
def Lexeme.integer? : Lexeme → Option Span
  | token (.int _) s => some s
  | _ => none

/-- The places of integer literals among some lexemes. -/
def integersAmong (ls : List Lexeme) : List Span := ls.filterMap Lexeme.integer?

/-- The place from the start of a literal to the end of the word that touches it, if one does. -/
def touchedAt? (source : List Char) (s : Span) : Option Span :=
  match Text.dropBytes s.stop source with
  | c :: cs =>
    if isWordStart c then some ⟨s.start, s.stop + Utf8.size ((c :: cs).takeWhile isWordPart)⟩
    else none
  | [] => none

/-- A zero by itself, or before a digit that cannot make it octal. -/
def isBareZero : List Char → Bool
  | ['0'] => true
  | '0' :: d :: _ => d.isDigit && !isOctalDigit d
  | _ => false

/-- The literals among some places that are looked at for a word behind them. -/
def examined (source : List Char) (ss : List Span) : List Span :=
  ss.filter fun s => !isBareZero (Text.slice source s)

/-! ### Bare zeros -/

/-- What is read as a zero without digits of some radix is a bare one. -/
theorem isBareZero_of_zero {text : List Char} (h : Numeral.Spelled .zero text) :
    isBareZero text = true := by
  cases h with
  | zero => rfl
  | strayZero hstray =>
      obtain ⟨d, ds, rfl, ho, hd⟩ := hstray
      have hdigit := hd d (.head _)
      simp [isBareZero, ho, hdigit]

/-- What is read as digits of some radix is no bare zero. -/
theorem not_isBareZero_of_integer {radix : Nat} {ds text : List Char}
    (h : Numeral.Spelled (.integer radix ds) text) : isBareZero text = false := by
  cases h with
  | octal hd _ => simp [isBareZero, hd]
  | decimal hd _ =>
      unfold isBareZero
      split
      · rename_i heq
        exact absurd (List.cons.inj heq).1 hd
      · rename_i heq
        exact absurd (List.cons.inj heq).1 hd
      · rfl
  | hexadecimal hx _ => rcases hx with rfl | rfl <;> rfl

/-! ### One item -/

section

variable {source before text rest cs : List Char} {c : Char}

/-- What is noted of a word is where the word is that touches the literal. -/
theorem touchingAmong_integerNotes (h : source = before ++ (text ++ rest)) (htext : Narrow text)
    (value? : Option UInt64) :
    touchingAmong (Item.integerNotes (Utf8.size before) text.length rest value?) =
      (touchedAt? source (.behind before text)).toList := by
  have hdrop : Text.dropBytes (Utf8.size before + Utf8.size text) source = rest := by
    rw [h, ← List.append_assoc, ← Utf8.size_append]
    exact Text.dropBytes_append _ _
  have hvalue : touchingAmong (if value?.isNone then [.integerOutOfRange
      ⟨Utf8.size before, Utf8.size before + text.length⟩] else []) = [] := by
    cases value? <;> rfl
  unfold touchedAt? Item.integerNotes Span.behind
  dsimp only
  rw [touchingAmong, List.filterMap_append, ← touchingAmong, ← touchingAmong, hvalue,
    List.append_nil, hdrop]
  cases rest with
  | nil => rfl
  | cons d ds =>
      have hword := narrow_takeWhile (fun _ => toNat_le_of_isWordPart) (d :: ds)
      dsimp only
      rw [hword.size, htext.size]
      split
      · rfl
      · rfl

/-- What some lexemes note of words is what touches the literals among them. -/
def Settled (source : List Char) (ls : List Lexeme) : Prop :=
  touchingAmong (ls.filterMap Lexeme.note?) =
    (examined source (integersAmong ls)).filterMap (touchedAt? source)

theorem Settled.nil : Settled source [] := rfl

theorem Settled.append {ls ms : List Lexeme} (hl : Settled source ls) (hm : Settled source ms) :
    Settled source (ls ++ ms) := by
  unfold Settled touchingAmong integersAmong examined at *
  rw [List.filterMap_append, List.filterMap_append, List.filterMap_append, List.filter_append,
    List.filterMap_append, hl, hm]

theorem Item.notes_lexemes (item : Item) (offset : Nat) :
    (item.lexemes offset c cs).filterMap Lexeme.note? = item.notes := by
  have hnotes : (item.notes.map Lexeme.note).filterMap Lexeme.note? = item.notes := by
    rw [List.filterMap_map]
    exact List.filterMap_some
  rw [lexemes, List.filterMap_append, hnotes]
  cases item.reading <;> exact List.append_nil _

theorem Item.integers_lexemes (item : Item) :
    integersAmong (item.lexemes (Utf8.size before) c cs) =
      match item.reading with
      | .token (.int _) => [.behind before (item.taken c cs)]
      | _ => [] := by
  have hnotes : (item.notes.map Lexeme.note).filterMap Lexeme.integer? = [] := by
    rw [List.filterMap_map, List.filterMap_eq_nil_iff]
    exact fun d _ => rfl
  rw [integersAmong, lexemes, List.filterMap_append, hnotes, List.nil_append]
  cases item.reading with
  | token t => cases t <;> rfl
  | illegal => rfl
  | blank => rfl

/-- An item that is no integer, and notes nothing of words, is settled. -/
theorem Item.settled_of_quiet {item : Item} (hreading : ∀ v, item.reading ≠ .token (.int v))
    (hnotes : touchingAmong item.notes = []) :
    Settled source (item.lexemes (Utf8.size before) c cs) := by
  unfold Settled
  rw [notes_lexemes, integers_lexemes, hnotes]
  split
  · rename_i v heq
    exact absurd heq (hreading v)
  · rfl

/-- What is noted of a literal in quotes is not about integers. -/
theorem Quoted.touchingAmong_diagnostics (q : Quoted) (offset : Nat) :
    touchingAmong (q.diagnostics offset) = [] := by
  rw [touchingAmong, List.filterMap_eq_nil_iff]
  intro d hd
  rcases List.mem_append.mp hd with hd | hd
  · obtain ⟨f, -, rfl⟩ := List.mem_map.mp hd
    unfold QuotedFault.diagnostic
    split <;> rfl
  · split at hd
    · obtain rfl := List.mem_singleton.mp hd
      rfl
    · cases hd

theorem Item.touchingAmong_readSlash (offset : Nat) :
    touchingAmong (readSlash offset cs).notes = [] := by
  unfold readSlash
  split
  · rfl
  · split <;> rfl
  · rfl

theorem Item.settled_readNumeral (h : source = before ++ c :: cs)
    (hc : c.isDigit = true ∨ c = '.') :
    Settled source
      ((readNumeral (Utf8.size before) (c :: cs)).lexemes (Utf8.size before) c cs) := by
  have hlength := Numeral.read_length (c :: cs)
  rcases hn : Numeral.read (c :: cs) with ⟨numeral, width⟩
  rw [hn] at hlength
  have hsource : source = before ++ ((c :: cs).take width ++ (c :: cs).drop width) := by
    rw [List.take_append_drop, h]
  have hslice := Text.slice_behind _ hsource
  unfold readNumeral
  rw [hn]
  cases numeral with
  | float value => exact settled_of_quiet (fun v => nofun) rfl
  | zero =>
      -- A zero alone is not examined for what touches it, and nothing is noted of it.
      have hzero := isBareZero_of_zero (Numeral.spelled_read hc hn nofun)
      unfold Settled
      rw [notes_lexemes, integers_lexemes]
      dsimp only [taken]
      rw [examined, List.filter_singleton, hslice, hzero]
      rfl
  | integer radix ds =>
      have hdigits := not_isBareZero_of_integer (Numeral.spelled_read hc hn nofun)
      have hnotes := touchingAmong_integerNotes hsource (Numeral.narrow_of_read hn)
        (integerValue? radix ds)
      rw [List.length_take, Nat.min_eq_left hlength] at hnotes
      unfold Settled
      rw [notes_lexemes, integers_lexemes]
      dsimp only [taken]
      rw [examined, List.filter_singleton, hslice, hdigits, hnotes, Bool.not_false, cond_true,
        List.filterMap_cons, List.filterMap_nil]
      cases touchedAt? source (.behind before ((c :: cs).take width)) <;> rfl

theorem Item.settled_read (h : source = before ++ c :: cs) :
    Settled source ((read (Utf8.size before) c cs).lexemes (Utf8.size before) c cs) := by
  rcases read_cases (Utf8.size before) c cs with ⟨-, hr⟩ | ⟨-, hr⟩ | ⟨hc, hr⟩ | ⟨-, hr⟩ | ⟨-, hr⟩ |
    ⟨p, -, hr⟩ | ⟨-, hr⟩
  · rw [hr]
    exact settled_of_quiet (fun v => nofun) rfl
  · rw [hr]
    exact settled_of_quiet (fun v => nofun) rfl
  · rw [hr]
    exact settled_readNumeral h (hc.imp_right And.left)
  · rw [hr]
    exact settled_of_quiet (fun v => nofun) (Quoted.touchingAmong_diagnostics _ _)
  · rw [hr]
    exact settled_of_quiet (fun v => readSlash_reading _ cs _) (touchingAmong_readSlash _)
  · rw [hr]
    exact settled_of_quiet (fun v => nofun) rfl
  · rw [hr]
    exact settled_of_quiet (fun v => nofun) rfl

end

/-! ### From item to item -/

theorem settled_scanFrom (before behind : List Char) :
    Settled (before ++ behind) (scanFrom 0 (Utf8.size before) behind) := by
  induction before, behind using item_induction with
  | nil before =>
      rw [scanFrom_nil]
      exact .nil
  | item before c cs ih =>
      rw [List.append_assoc, Item.taken_append_left] at ih
      rw [scanFrom_cons, ← Utf8.size_append]
      exact (Item.settled_read rfl).append ih

theorem settled_scan (source : List Char) : Settled source (scan source) := by
  obtain ⟨before, behind, rfl, hscan, -⟩ := scan_eq source
  rw [hscan]
  exact settled_scanFrom before behind

/-! ### Parsing and checking -/

theorem touchingAmong_filter (ds : List Diagnostic) :
    touchingAmong (ds.filter Diagnostic.isOfScanner) = touchingAmong ds := by
  unfold touchingAmong
  rw [List.filterMap_filter]
  refine List.filterMap_congr fun d _ => ?_
  cases d <;> rfl

theorem touchingAmong_eq_nil {ds : List Diagnostic} (h : ∀ d ∈ ds, d.isOfScanner = false) :
    touchingAmong ds = [] := by
  have hnone : ds.filter Diagnostic.isOfScanner = [] :=
    List.filter_eq_nil_iff.mpr fun d hd => by rw [h d hd]; exact Bool.false_ne_true
  rw [← touchingAmong_filter, hnone]
  rfl

/-- What parsing reports of words that touch integers is what the scan of the source notes. -/
theorem touching_of_parseFile (source : List Char) :
    touchingAmong (parseFile source).diagnostics =
      (examined source (integersAmong (scan source))).filterMap (touchedAt? source) := by
  rw [← touchingAmong_filter, scannerNotes_of_parseFile]
  exact settled_scan source

theorem touching_of_readChars {name : String} {source : List Char} {report : Report}
    (h : reportOf? (readChars name source) = some report) :
    (touchingAmong report.diagnostics).Perm (touchingAmong (parseFile source).diagnostics) := by
  cases tells_of_readChars h with
  | unclosed hparse =>
      rw [hparse]
      exact .refl _
  | @tree file ds hparse =>
      have hfile := (liesIn_of_parseFile source).2 file ds hparse
      have hnaming : touchingAmong (SymbolTable.ofFile file).2 = [] := by
        refine touchingAmong_eq_nil fun d hd => ?_
        rw [(SymbolTable.tracks_ofFile file).2] at hd
        obtain ⟨-, -, -, -, -, -, rfl⟩ := mem_repetitions.mp hd
        rfl
      have hchecking := touchingAmong_eq_nil
        (Checked.All.not_isOfScanner_describe hfile name (SymbolTable.ofFile file).1)
      refine ((Diagnostic.sortByStart_perm _).filterMap _).trans ?_
      rw [hparse]
      unfold touchingAmong at *
      rw [List.filterMap_append, List.filterMap_append, hnaming, hchecking, List.append_nil,
        List.append_nil]
      exact .refl _

/--
**Words that touch integers are reported, except behind a bare zero.**  What parsing reports of them
are the places of the integer literals of the source that are no bare zeros and that a word touches,
in their order, each from the start of the literal to the end of the word.  A report has no others,
and all of these, whether or not it comes with a descriptor.
-/
theorem touching_exact (source : List Char) (name : String) :
    touchingAmong (parseFile source).diagnostics =
      (examined source (integersAmong (scan source))).filterMap (touchedAt? source) ∧
    ∀ report, reportOf? (readChars name source) = some report →
      (touchingAmong report.diagnostics).Perm
        ((examined source (integersAmong (scan source))).filterMap (touchedAt? source)) := by
  refine ⟨touching_of_parseFile source, fun report h => ?_⟩
  rw [← touching_of_parseFile source]
  exact touching_of_readChars h

/-- A reservation from a bare zero, with a word that touches it. -/
def zeroText : String := "enum E \x7b A = 5; reserved 0to 3; \x7d"

/-- A word may touch a bare zero, and nothing is said about it. -/
theorem exists_untold_zero :
    touchingAmong (parseFile zeroText.toList).diagnostics ≠
        (integersAmong (scan zeroText.toList)).filterMap (touchedAt? zeroText.toList) ∧
      (integersAmong (scan zeroText.toList)).filterMap (touchedAt? zeroText.toList) =
        [⟨25, 28⟩] ∧
      (reportOf? (readText "zero.proto" zeroText)).map Report.diagnostics = some [] :=
  ⟨by decide +kernel, by decide +kernel, by decide +kernel⟩

end ProtoSchema
