/-
Reading a source without a fault.

The machine reads a source from its text to its report: it parses, it assembles what it parsed,
and it makes a report of what there is to say, which must be something.  All that it takes for
granted on the way is so.  Whatever the text, there is no fault, and the machine reads what the
parser and the checks read.

A parse comes to nothing only where a body is not closed, and this is reported where it is found
out.  So there is always something to say about a source that was not parsed to its end.
-/
import ProtoSchema.Proofs.Machine.Productions
import ProtoSchema.Proofs.Machine.Scopes
import ProtoSchema.Proofs.Parsing.BraceDiscipline
import ProtoSchema.Schema

namespace ProtoSchema

/-! ### Parsing -/

/-- A parse makes a tree, or ends within a body and has reported that. -/
theorem Parser.file_outcome (source : List Char) :
    (∃ file r, Parser.file ⟨source, false⟩ ⟨scan source, []⟩ = .done file r) ∨
      ∃ r, Parser.file ⟨source, false⟩ ⟨scan source, []⟩ = .halted .unclosed r ∧ r.log ≠ [] := by
  have hend : FileEnd ⟨scan source, []⟩
      (iterate nextStatement ⟨.empty, true⟩ ⟨source, false⟩ ⟨scan source, []⟩) :=
    evolve_nextStatement rfl (scan source) _ _ (Nat.le_refl _)
  unfold Parser.file
  rw [bind_run]
  generalize iterate nextStatement ⟨.empty, true⟩ ⟨source, false⟩ ⟨scan source, []⟩ = o at hend ⊢
  cases hend with
  | tree surveys ends told => exact .inl ⟨_, _, rfl⟩
  | eof surveys ends => exact .inl ⟨_, _, rfl⟩
  | unclosed surveys ends mem => exact .inr ⟨_, rfl, List.cons_ne_nil _ _⟩

/-- What is reported about a source that was not parsed to its end is not nothing. -/
theorem diagnostics_ne_nil_of_unclosed {source : List Char} {ds : List Diagnostic}
    (h : parseFile source = .unclosed ds) : ds ≠ [] := by
  unfold parseFile at h
  obtain ⟨file, r, hrun⟩ | ⟨r, hrun, hlog⟩ := Parser.file_outcome source
  · rw [hrun] at h
    cases h
  · rw [hrun] at h
    obtain rfl := ParseResult.unclosed.inj h
    exact fun hnil => hlog (List.reverse_eq_nil_iff.mp hnil)

namespace Machine

theorem State.start_works (source : List Char) : Works ⟨source, false⟩ 0 0 (.start source) :=
  ⟨rfl, rfl, rfl, inOrder_scan source, fun _ h => fits_of_mem_scan h⟩

/-- The machine parses what the parser parses, and has no fault. -/
theorem parseFile_eq (source : List Char) :
    Machine.parseFile source = .ok (ProtoSchema.parseFile source) := by
  have hagrees : Agrees ⟨source, false⟩ 0 0 (fun a b _ => a = b)
      (Machine.file source (.start source)) (Parser.file ⟨source, false⟩ ⟨scan source, []⟩) :=
    Tracks.file ⟨source, false⟩ 0 0 _ (State.start_works source) trivial
  unfold Machine.parseFile ProtoSchema.parseFile
  obtain ⟨file, r, hrun⟩ | ⟨r, hrun, -⟩ := Parser.file_outcome source
  · rw [hrun] at hagrees ⊢
    generalize Machine.file source (.start source) = result at hagrees ⊢
    cases hagrees with
    | done works holds =>
        rw [holds]
        rfl
  · rw [hrun] at hagrees ⊢
    generalize Machine.file source (.start source) = result at hagrees ⊢
    cases hagrees with
    | unclosed fatal => rfl

/-! ### Reading -/

/-- A report, which must report something. -/
def newReport (name : String) (source : List UInt8) : List Diagnostic → Except Fault Report
  | [] => .error .emptyReport
  | d :: ds => .ok ⟨name, source, d :: ds⟩

/-- The report on a source that was parsed, which may have nothing to report. -/
def report (name : String) (source : List UInt8) (found : List Diagnostic) :
    Except Fault Report :=
  if found.isEmpty then .ok ⟨name, source, []⟩
  else newReport name source (Diagnostic.sortByStart found)

/-- Reads a text that is not too large. -/
def readChars (name : String) (source : List Char) : Except Fault (Except Failure Schema) := do
  match ← Machine.parseFile source with
  | .unclosed ds => do
    let r ← newReport name (Utf8.encode source) ds
    pure (.error (.unclosed r))
  | .tree file parsing => do
    let (symbols, naming) := SymbolTable.ofFile file
    let described ← Assembler.describe file name symbols
    let r ← report name (Utf8.encode source) (parsing ++ naming ++ described.diagnostics)
    pure (.ok ⟨described.value, r⟩)

/-- Reads the text of a source. -/
def readText (name : String) (source : String) : Except Fault (Except Failure Schema) :=
  if maxSourceSize < source.utf8ByteSize then .ok (.error (.tooLarge name))
  else readChars name source.toList

theorem newReport_eq (name : String) (source : List UInt8) {ds : List Diagnostic} (h : ds ≠ []) :
    newReport name source ds = .ok ⟨name, source, ds⟩ := by
  cases ds with
  | nil => exact absurd rfl h
  | cons d ds => rfl

theorem report_eq (name : String) (source : List UInt8) (found : List Diagnostic) :
    report name source found = .ok ⟨name, source, Diagnostic.sortByStart found⟩ := by
  rw [report]
  cases found with
  | nil => rfl
  | cons d ds =>
      -- Sorting neither adds nor removes anything.
      refine (if_neg (by simp)).trans (newReport_eq name source fun hnil => ?_)
      have hperm := Diagnostic.sortByStart_perm (d :: ds)
      rw [hnil] at hperm
      exact List.cons_ne_nil d ds hperm.nil_eq.symm

theorem readChars_eq (name : String) (source : List Char) :
    readChars name source = .ok (ProtoSchema.readChars name source) := by
  unfold readChars ProtoSchema.readChars
  rw [parseFile_eq]
  cases hparse : ProtoSchema.parseFile source with
  | unclosed ds =>
      dsimp only [bind, Except.bind]
      rw [newReport_eq name _ (diagnostics_ne_nil_of_unclosed hparse)]
      rfl
  | tree file parsing =>
      dsimp only [bind, Except.bind]
      rw [Assembler.describe_eq]
      dsimp only
      rw [report_eq]
      rfl

end Machine

/--
**Reading a source has no fault.**  From the text to the report the machine takes tokens that it
has looked at, only of kinds that it has looked for; its counts of bodies and braces never go
below zero, and the text of a block is a slice of the source.  It leaves the scopes that it has
entered and no others, no bound of a range is too large to add one to it, it reports something
where it must, and its loops end.  It reads what `readText` does.
-/
theorem readText_faultless (name : String) (source : String) :
    Machine.readText name source = .ok (readText name source) := by
  unfold Machine.readText readText
  split
  · rfl
  · exact Machine.readChars_eq name source.toList

end ProtoSchema
