/-
Layout does not matter.

Two sources with the same tokens are read alike, whatever space and comments stand between the
tokens.  Places differ, and so does the text of blocks in braces; the sources here have no blocks
among their options.

Both are compared with a third, in which each token stands at its number and the source is
blank.  A relocation takes each number to the place of that token, and numbers behind the last
token to places behind the source.  It puts no two starts in another order, so the diagnostics
of all phases are sorted alike.  Then readings without places are the same, since each is the
reading of the numbered tokens without places.
-/
import Mathlib.Order.Monotone.Basic
import ProtoSchema.Proofs.Relocation.Named
import ProtoSchema.Proofs.Relocation.Productions
import ProtoSchema.Proofs.Rendering.Locality
import ProtoSchema.Proofs.Scanning.Places
import ProtoSchema.Schema

namespace ProtoSchema

/-! ### Numbered tokens -/

/-- Tokens that stand each at its number, which are counted from `i` on. -/
def numbered : Nat → List Token → List Lexeme
  | _, [] => []
  | i, t :: ts => .token t ⟨i, i⟩ :: numbered (i + 1) ts

/-- Where number `i` goes if numbers go to what `f` says of some spans, and behind an end. -/
def placeOf (f : Span → Nat) (stop : Nat) : List Span → Nat → Nat
  | [], i => stop + i
  | s :: _, 0 => f s
  | _ :: ss, i + 1 => placeOf f stop ss i

/-- Numbers go to the places of some spans, and numbers behind the last one behind an end. -/
def Relocation.along (ss : List Span) (stop : Nat) : Relocation :=
  ⟨placeOf Span.start stop ss, placeOf Span.stop stop ss, id⟩

theorem placeOf_length (f : Span → Nat) (stop : Nat) (ss : List Span) :
    placeOf f stop ss ss.length = stop := by
  induction ss with
  | nil => rfl
  | cons s ss ih => exact ih

/-- Starts of spans one behind the other keep their order. -/
theorem strictMono_placeOf {lo stop : Nat} {ss : List Span} (h : InOrder lo ss)
    (hstop : ∀ s ∈ ss, s.stop ≤ stop) : StrictMono (placeOf Span.start stop ss) := by
  refine strictMono_nat_of_lt_succ fun i => ?_
  induction ss generalizing lo i with
  | nil => exact Nat.lt_succ_self _
  | cons s ss ih =>
      obtain ⟨-, hs, hrest⟩ := h.of_cons
      cases i with
      | succ i => exact ih hrest (fun r hr => hstop r (.tail _ hr)) i
      | zero =>
          cases ss with
          | nil => exact Nat.lt_of_lt_of_le hs (hstop s (.head _))
          | cons r ss => exact Nat.lt_of_lt_of_le hs (hrest.1 r (.head _)).1

/-- Lexemes that are tokens only are the numbered tokens at other places. -/
theorem numbered_moved {m : Relocation} {ls : List Lexeme} {ts : List Token} (k : Nat)
    (hts : ls.map Lexeme.token? = ts.map some) {stop : Nat}
    (hstart : ∀ i, m.start (k + i) = placeOf Span.start stop (spans ls) i)
    (hend : ∀ i, m.stop (k + i) = placeOf Span.stop stop (spans ls) i) :
    (numbered k ts).map (Lexeme.moved m) = ls := by
  induction ls generalizing k ts with
  | nil =>
      obtain rfl := List.map_eq_nil_iff.mp hts.symm
      rfl
  | cons l ls ih =>
      obtain ⟨t, ts, rfl, hl, hls⟩ := List.map_eq_cons_iff.mp hts.symm
      cases l with
      | token t' s =>
          obtain rfl := Option.some.inj hl
          have hplace : Span.moved m ⟨k, k⟩ = s := by
            rw [Span.moved, show m.start k = s.start from hstart 0,
              show m.stop k = s.stop from hend 0]
          have hrest := ih (k + 1) hls.symm
            (fun i => (congrArg m.start (by omega)).trans (hstart (i + 1)))
            (fun i => (congrArg m.stop (by omega)).trans (hend (i + 1)))
          rw [numbered, List.map_cons, hrest, Lexeme.moved, hplace]
      | illegal c s => cases hl
      | note d => cases hl

/-- As many tokens as spans. -/
theorem length_spans {ls : List Lexeme} {ts : List Token}
    (hts : ls.map Lexeme.token? = ts.map some) : (spans ls).length = ts.length := by
  induction ls generalizing ts with
  | nil =>
      obtain rfl := List.map_eq_nil_iff.mp hts.symm
      rfl
  | cons l ls ih =>
      obtain ⟨t, ts, rfl, hl, hls⟩ := List.map_eq_cons_iff.mp hts.symm
      cases l with
      | token t' s => exact congrArg (· + 1) (ih hls.symm)
      | illegal c s => cases hl
      | note d => cases hl

/-! ### Blank sources -/

/-- The surroundings of a parser in a blank source of some size. -/
def blank (size : Nat) : Surroundings := ⟨List.replicate size ' ', false⟩

theorem size_blank (size : Nat) : Utf8.size (blank size).source = size := by
  induction size with
  | zero => rfl
  | succ n ih =>
      rw [blank, List.replicate_succ, Utf8.size_cons]
      rw [blank] at ih
      rw [ih]
      exact Nat.add_comm 1 n

theorem mem_of_mem_dropBytes (n : Nat) (cs : List Char) {c : Char}
    (h : c ∈ Text.dropBytes n cs) : c ∈ cs := by
  induction n, cs using Text.dropBytes.induct with
  | case1 cs => rwa [Text.dropBytes] at h
  | case2 n => rwa [Text.dropBytes] at h
  | case3 n d cs ih =>
      rw [Text.dropBytes] at h
      exact List.mem_cons_of_mem d (ih h)

theorem mem_of_mem_takeBytes (n : Nat) (cs : List Char) {c : Char}
    (h : c ∈ Text.takeBytes n cs) : c ∈ cs := by
  induction n, cs using Text.takeBytes.induct with
  | case1 cs =>
      rw [Text.takeBytes] at h
      cases h
  | case2 n =>
      rw [Text.takeBytes] at h
      cases h
  | case3 n d cs ih =>
      rw [Text.takeBytes] at h
      rcases List.mem_cons.mp h with rfl | h
      · exact List.mem_cons_self
      · exact List.mem_cons_of_mem d (ih h)

/-- A block of a blank source has no text. -/
theorem blockText_blank (size : Nat) (s : Span) : blockText (blank size).source s = "" := by
  have hblank : ∀ c ∈ Text.slice (blank size).source s, Text.isBlank c = true := by
    intro c hc
    have hmem := mem_of_mem_dropBytes _ _ (mem_of_mem_takeBytes _ _ hc)
    rw [(List.mem_replicate.mp hmem).2]
    decide
  have hnone : (Text.slice (blank size).source s).dropWhile Text.isBlank = [] :=
    List.dropWhile_eq_nil_iff.mpr hblank
  rw [blockText, Text.trim, hnone]
  rfl

/-- The numbered tokens go along with the tokens of a source. -/
theorem blank_moved (ss : List Span) (stop : Nat) :
    (blank ss.length).Moved (.along ss stop) (blank stop) where
  inBody := rfl
  stop := by
    have hstart := placeOf_length Span.start stop ss
    have hend := placeOf_length Span.stop stop ss
    rw [size_blank, size_blank]
    exact congrArg₂ Span.mk hstart.symm hend.symm
  block a b := by
    rw [blockText_blank, blockText_blank]
    rfl

/-- Blocks lose their text, and everything stays where it is. -/
def Relocation.erasing : Relocation := ⟨id, id, fun _ => ""⟩

theorem Relocation.stays_erasing : erasing.Stays := ⟨fun _ => rfl, fun _ => rfl⟩

theorem erasing_moved (source : List Char) :
    Surroundings.Moved .erasing ⟨source, false⟩ (blank (Utf8.size source)) where
  inBody := rfl
  stop := by
    rw [size_blank]
    rfl
  block a b := blockText_blank _ _

namespace Relocation.Stays

variable {m : Relocation}

theorem remainder (h : m.Stays) (r : Remainder) : r.moved m = r := by
  have hlexeme : ∀ l : Lexeme, l.moved m = l := by
    intro l
    cases l with
    | token t s => rw [Lexeme.moved, h.span]
    | illegal c s => rw [Lexeme.moved, h.span]
    | note d => rw [Lexeme.moved, h.diagnostic]
  rw [Remainder.moved, map_eq_self fun l _ => hlexeme l, map_eq_self fun d _ => h.diagnostic d]

end Relocation.Stays

/-! ### Plain sources -/

/-- No option that was parsed is set to a block in braces. -/
def ParseResult.Blockless : ParseResult → Prop
  | .tree file _ => ∀ o ∈ file.settings, o.value.isBlock = false
  | .unclosed _ => True

instance : DecidablePred ParseResult.Blockless
  | .tree file _ => inferInstanceAs (Decidable (∀ o ∈ file.settings, o.value.isBlock = false))
  | .unclosed _ => inferInstanceAs (Decidable True)

/-- A source that is read to these tokens, with nothing else in it but space and comments. -/
structure IsPlain (source : String) (ts : List Token) : Prop where
  /-- The source is not too large, so it is scanned at all. -/
  size : source.utf8ByteSize ≤ maxSourceSize
  /-- The scanner yields tokens, and has nothing to report. -/
  tokens : (scan source.toList).map Lexeme.token? = ts.map some
  /-- No option has a block as its value. -/
  blockless : (parseFile source.toList).Blockless

/-- How the tokens of a source are parsed, as if each stood at its number. -/
def parseNumbered (ts : List Token) : Outcome File :=
  Parser.file (blank ts.length) ⟨numbered 0 ts, []⟩

/-- Where the numbers of tokens go in a source. -/
def Relocation.into (source : List Char) : Relocation :=
  .along (spans (scan source)) (Utf8.size source)

namespace IsPlain

variable {source : String} {ts : List Token}

/-- A source is parsed as if it were blank, since none of its blocks is read. -/
theorem parse_blank (h : IsPlain source ts) :
    Parser.file (blank (Utf8.size source.toList)) ⟨scan source.toList, []⟩ =
      Parser.file ⟨source.toList, false⟩ ⟨scan source.toList, []⟩ := by
  have herased := Parser.Follows.file (m := .erasing) _ _ (erasing_moved source.toList)
    ⟨scan source.toList, []⟩
  rw [Relocation.stays_erasing.remainder] at herased
  rw [herased]
  cases hparse : Parser.file ⟨source.toList, false⟩ ⟨scan source.toList, []⟩ with
  | halted reason r => rw [Outcome.moved, Relocation.stays_erasing.remainder]
  | done file r =>
      have hblockless := h.blockless
      rw [parseFile, hparse] at hblockless
      have hfile : file.moved .erasing = file := Relocation.stays_erasing.file
        (Relocation.stays_erasing.keeps hblockless)
      rw [Outcome.moved, Relocation.stays_erasing.remainder, hfile]

theorem parse (h : IsPlain source ts) :
    Parser.file ⟨source.toList, false⟩ ⟨scan source.toList, []⟩ =
      (parseNumbered ts).moved (.into source.toList) (File.moved (.into source.toList)) := by
  have hlexemes : (numbered 0 ts).map (Lexeme.moved (.into source.toList)) = scan source.toList :=
    numbered_moved 0 h.tokens (fun i => congrArg _ (Nat.zero_add i))
      (fun i => congrArg _ (Nat.zero_add i))
  have hmoved := blank_moved (spans (scan source.toList)) (Utf8.size source.toList)
  rw [length_spans h.tokens] at hmoved
  have hparse := Parser.Follows.file _ _ hmoved ⟨numbered 0 ts, []⟩
  rw [← h.parse_blank]
  exact (congrArg (fun ls => Parser.file _ ⟨ls, []⟩) hlexemes.symm).trans hparse

end IsPlain

/-! ### Diagnostics in order -/

section

variable {m : Relocation}

theorem insertByStart_moved (hm : StrictMono m.start) (d : Diagnostic) (ds : List Diagnostic) :
    Diagnostic.insertByStart (d.moved m) (ds.map (Diagnostic.moved m)) =
      (Diagnostic.insertByStart d ds).map (Diagnostic.moved m) := by
  induction ds with
  | nil => rfl
  | cons e es ih =>
      have hle : (d.moved m).span.start ≤ (e.moved m).span.start ↔ d.span.start ≤ e.span.start := by
        rw [d.span_moved, e.span_moved]
        exact hm.le_iff_le
      rw [List.map_cons, Diagnostic.insertByStart, Diagnostic.insertByStart]
      by_cases h : d.span.start ≤ e.span.start
      · rw [if_pos (hle.mpr h), if_pos h, List.map_cons, List.map_cons]
      · rw [if_neg (mt hle.mp h), if_neg h, ih, List.map_cons]

/-- Diagnostics whose starts keep their order are sorted alike, those that start together too. -/
theorem sortByStart_moved (hm : StrictMono m.start) (ds : List Diagnostic) :
    Diagnostic.sortByStart (ds.map (Diagnostic.moved m)) =
      (Diagnostic.sortByStart ds).map (Diagnostic.moved m) := by
  induction ds with
  | nil => rfl
  | cons d ds ih =>
      rw [List.map_cons, Diagnostic.sortByStart, List.foldr_cons, ← Diagnostic.sortByStart, ih,
        insertByStart_moved hm]
      rfl

end

theorem Relocation.strictMono_into (source : List Char) : StrictMono (into source).start :=
  strictMono_placeOf (inOrder_scan source) fun _ hs => (fits_of_mem_scan hs).inside

/-! ### Readings -/

/-- The descriptor of a parsed file, and all that is wrong with it, by place. -/
def File.reading (file : File) (name : String) (parsing : List Diagnostic) :
    FileDescriptor × List Diagnostic :=
  let (symbols, naming) := SymbolTable.ofFile file
  let described := file.describe name symbols
  (described.value, Diagnostic.sortByStart (parsing ++ naming ++ described.diagnostics))

theorem File.reading_moved {m : Relocation} (hm : StrictMono m.start) (htext : m.KeepsText)
    (file : File) (name : String) (parsing : List Diagnostic) :
    (file.moved m).reading name (parsing.map (Diagnostic.moved m)) =
      ((file.reading name parsing).1.moved m,
        (file.reading name parsing).2.map (Diagnostic.moved m)) := by
  have hdescribe := file.describe_moved ⟨m, false, htext⟩ rfl name (SymbolTable.ofFile file).1
  have hdiagnostics : ∀ ds, Change.diagnostics ⟨m, false, htext⟩ ds = ds.map (Diagnostic.moved m) :=
    fun ds => congrArg (List.map _) (List.filter_eq_self.mpr fun d _ => rfl)
  rw [Checked.told, hdiagnostics] at hdescribe
  unfold reading
  rw [SymbolTable.ofFile_moved]
  dsimp only
  rw [hdescribe, ← List.map_append, ← List.map_append, sortByStart_moved hm]

/-- Nothing stands anywhere. -/
def Relocation.nowhere : Relocation := ⟨fun _ => 0, fun _ => 0, id⟩

/--
Readings that agree but for places: either there is no descriptor, or it is the same.  The only
places in a descriptor are those of names that were not resolved.
-/
inductive SameReading : Except Failure Schema → Except Failure Schema → Prop
  | read {s s' : Schema}
      (descriptor : s.descriptor.moved .nowhere = s'.descriptor.moved .nowhere)
      (diagnostics : s.report.diagnostics.map (Diagnostic.moved .nowhere) =
        s'.report.diagnostics.map (Diagnostic.moved .nowhere)) :
      SameReading (.ok s) (.ok s')
  | unclosed {r r' : Report}
      (diagnostics : r.diagnostics.map (Diagnostic.moved .nowhere) =
        r'.diagnostics.map (Diagnostic.moved .nowhere)) :
      SameReading (.error (.unclosed r)) (.error (.unclosed r'))

theorem Diagnostic.map_moved_nowhere (m : Relocation) (ds : List Diagnostic) :
    (ds.map (Diagnostic.moved m)).map (Diagnostic.moved .nowhere) =
      ds.map (Diagnostic.moved .nowhere) := by
  rw [List.map_map]
  exact List.map_congr_left fun d _ => d.moved_moved m .nowhere

namespace IsPlain

variable {source : String} {ts : List Token}

theorem readText_done (h : IsPlain source ts) (name : String) {file : File} {r : Remainder}
    (hparse : parseNumbered ts = .done file r) :
    readText name source =
      .ok ⟨(file.reading name r.log.reverse).1.moved (.into source.toList),
        ⟨name, Utf8.encode source.toList,
          (file.reading name r.log.reverse).2.map (Diagnostic.moved (.into source.toList))⟩⟩ := by
  have hfile := h.parse
  rw [hparse, Outcome.moved] at hfile
  have hreading := file.reading_moved (Relocation.strictMono_into source.toList) (fun _ => rfl) name
    r.log.reverse
  rw [readText, if_neg (Nat.not_lt.mpr h.size), readChars, parseFile, hfile]
  dsimp only [Remainder.moved]
  rw [← List.map_reverse]
  exact congrArg (fun x : FileDescriptor × List Diagnostic =>
    Except.ok (Schema.mk x.1 ⟨name, Utf8.encode source.toList, x.2⟩)) hreading

theorem readText_halted (h : IsPlain source ts) (name : String) {reason : Halt} {r : Remainder}
    (hparse : parseNumbered ts = .halted reason r) :
    readText name source =
      .error (.unclosed ⟨name, Utf8.encode source.toList,
        r.log.reverse.map (Diagnostic.moved (.into source.toList))⟩) := by
  have hfile := h.parse
  rw [hparse, Outcome.moved] at hfile
  rw [readText, if_neg (Nat.not_lt.mpr h.size), readChars, parseFile, hfile]
  dsimp only [Remainder.moved]
  rw [← List.map_reverse]

end IsPlain

/--
**Layout does not matter.**  Two sources that are scanned to the same tokens, without anything to
report, and without blocks among their options, are read alike under the same name.  Either both
end within a body, or both have a descriptor, and it is the same.  In either case the same is
wrong with them in the same order, but for places.
-/
theorem sameReading_of_tokens (name : String) {source source' : String} {ts : List Token}
    (h : IsPlain source ts) (h' : IsPlain source' ts) :
    SameReading (readText name source) (readText name source') := by
  cases hparse : parseNumbered ts with
  | done file r =>
      rw [h.readText_done name hparse, h'.readText_done name hparse]
      refine .read ?_ ?_
      · rw [FileDescriptor.moved_moved, FileDescriptor.moved_moved]
        rfl
      · rw [Diagnostic.map_moved_nowhere, Diagnostic.map_moved_nowhere]
  | halted reason r =>
      rw [h.readText_halted name hparse, h'.readText_halted name hparse]
      refine .unclosed ?_
      rw [Diagnostic.map_moved_nowhere, Diagnostic.map_moved_nowhere]

/-- A message on one line, with a field of a type that it lacks. -/
def oneLine : String := "message A \x7b B b = 1; \x7d"

/-- The same message on many lines, with a comment. -/
def manyLines : String := "message A\x7b\n  // of type B\n  B b = 1;\n\x7d\n"

/-- The message on one line and on many is read alike. -/
theorem sameReading_of_tokens_lines :
    ∃ ts, IsPlain oneLine ts ∧ IsPlain manyLines ts ∧
      SameReading (readText "a.proto" oneLine) (readText "a.proto" manyLines) := by
  have h : IsPlain oneLine [.ident "message", .ident "A", .mark .leftBrace, .ident "B",
      .ident "b", .mark .equals, .int 1, .mark .semicolon, .mark .rightBrace] :=
    ⟨by decide +kernel, by decide +kernel, by decide +kernel⟩
  have h' : IsPlain manyLines [.ident "message", .ident "A", .mark .leftBrace, .ident "B",
      .ident "b", .mark .equals, .int 1, .mark .semicolon, .mark .rightBrace] :=
    ⟨by decide +kernel, by decide +kernel, by decide +kernel⟩
  exact ⟨_, h, h', sameReading_of_tokens "a.proto" h h'⟩

end ProtoSchema
