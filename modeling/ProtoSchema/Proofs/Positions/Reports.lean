/-
Positions can be trusted.

All places that are reported about a source, and all places in its tree, are stretches of the
source, with no character split, and the parts of a node lie within the node.  A place that
lies in the source has a line and a column: the search for it goes through all bytes of the
source and gives up only behind the last one.
-/
import ProtoSchema.Proofs.Positions.Declared
import ProtoSchema.Proofs.Positions.Lines

namespace ProtoSchema

/-! ### Lines and columns -/

theorem Utf8.length_encode (cs : List Char) : (encode cs).length = size cs := by
  induction cs with
  | nil => rfl
  | cons c cs ih => rw [encode_cons, List.length_append, String.length_utf8EncodeChar, ih, size_cons]

/-- A stretch of the source has a line and a column. -/
theorem Position.isSome_ofSpan {source : List Char} {s : Span} (h : s.Fits source) :
    (ofSpan? (Utf8.encode source) s).isSome = true := by
  have h₁ := h.ordered
  have h₂ := h.inside
  rw [Option.isSome_iff_ne_none, ofSpan?, ne_eq, locate_eq_none_iff, Utf8.length_encode]
  omega

/-! ### Reports -/

/-- The report that comes with the result of reading a source, with a descriptor or without. -/
def reportOf? : Except Failure Schema → Option Report
  | .ok schema => some schema.report
  | .error (.unclosed report) => some report
  | .error _ => none

/-- What a report on a text consists of, by how the parse of the text ends. -/
inductive Tells (name : String) (source : List Char) : Report → Prop
  | unclosed {ds : List Diagnostic} (parse : parseFile source = .unclosed ds) :
      Tells name source ⟨name, Utf8.encode source, ds⟩
  | tree {file : File} {ds : List Diagnostic} (parse : parseFile source = .tree file ds) :
      Tells name source ⟨name, Utf8.encode source, Diagnostic.sortByStart
        (ds ++ (SymbolTable.ofFile file).2 ++
          (file.describe name (SymbolTable.ofFile file).1).diagnostics)⟩

theorem tells_of_readChars {name : String} {source : List Char} {report : Report}
    (h : reportOf? (readChars name source) = some report) : Tells name source report := by
  unfold readChars at h
  dsimp only at h
  cases hparse : parseFile source with
  | unclosed ds =>
      rw [hparse] at h
      obtain rfl := Option.some.inj h
      exact .unclosed hparse
  | tree file ds =>
      rw [hparse] at h
      obtain rfl := Option.some.inj h
      exact .tree hparse

/-- Everything that is reported about a text stands in it. -/
theorem fits_of_readChars {name : String} {source : List Char} {report : Report}
    (h : reportOf? (readChars name source) = some report) :
    report.source = Utf8.encode source ∧ ∀ d ∈ report.diagnostics, d.Fits source := by
  obtain ⟨hparsing, htree⟩ := liesIn_of_parseFile source
  cases tells_of_readChars h with
  | unclosed hparse =>
      rw [hparse] at hparsing
      exact ⟨rfl, hparsing⟩
  | @tree file ds hparse =>
      rw [hparse] at hparsing
      have hfile := htree file ds hparse
      refine ⟨rfl, fun d hd => ?_⟩
      rw [(Diagnostic.sortByStart_perm _).mem_iff, List.mem_append, List.mem_append] at hd
      rcases hd with (hd | hd) | hd
      · exact hparsing d hd
      · exact SymbolTable.fits_ofFile hfile d hd
      · exact Checked.Fits.describe hfile name _ d hd

/--
**Positions can be trusted.**  For every source, every place that a diagnostic of any phase
names is a stretch of the source that splits no character; if there is a tree, so is every
place in it, the parts of each node lie within the node, and its words stand in the source as
they stand in the tree.  And for every diagnostic of a report there are a line and a column.
-/
theorem positions_trustworthy (source : List Char) (name : String) :
    (∀ d ∈ (parseFile source).diagnostics, d.Fits source) ∧
    (∀ file ds, parseFile source = .tree file ds →
      file.LiesIn source ∧ (∀ d ∈ (SymbolTable.ofFile file).2, d.Fits source) ∧
        ∀ d ∈ (file.describe name (SymbolTable.ofFile file).1).diagnostics, d.Fits source) ∧
    ∀ report, reportOf? (readChars name source) = some report →
      ∀ d ∈ report.diagnostics, d.Fits source ∧ (report.position? d.span).isSome = true := by
  obtain ⟨hparsing, htree⟩ := liesIn_of_parseFile source
  refine ⟨hparsing, fun file ds h => ?_, fun report h d hd => ?_⟩
  · have hfile := htree file ds h
    exact ⟨hfile, SymbolTable.fits_ofFile hfile, Checked.Fits.describe hfile name _⟩
  · obtain ⟨hsource, hfits⟩ := fits_of_readChars h
    have hfit := hfits d hd
    refine ⟨hfit, ?_⟩
    rw [Report.position?, hsource]
    exact Position.isSome_ofSpan hfit.span

end ProtoSchema
