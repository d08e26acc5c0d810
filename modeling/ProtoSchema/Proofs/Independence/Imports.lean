/-
Imports only silence unresolved references.

A file that imports something may refer to what it does not declare, and nothing else changes
with that.  A reference that means nothing stays as it was written whether it is reported or not,
so the type of a field, the check of its default, and all that is assembled from them are the
same with imports and without.

The comparison is a change that moves nothing and silences unresolved references.
-/
import ProtoSchema.Proofs.Relocation.Assembled

namespace ProtoSchema

namespace Change

/-- Unresolved references are silenced, and everything stays in its place. -/
def silent : Change := ⟨.still, true, Relocation.keepsText_still⟩

theorem diagnostics_silent (ds : List Diagnostic) :
    silent.diagnostics ds = ds.filter (!·.isUnresolved) := by
  have hstays : Diagnostic.moved silent.relocation = id :=
    funext Relocation.stays_still.diagnostic
  rw [diagnostics, hstays, List.map_id]
  exact List.filter_congr fun d _ => rfl

end Change

namespace File

/-- With imports, names mean the same as without. -/
theorem silent_context (file : File) {imports : List Import} (himports : imports ≠ [])
    (symbols : SymbolTable) :
    (file.context symbols).Changed .silent
      (({ file with imports } : File).context symbols) where
  dialect := rfl
  resolve _ _ := rfl
  isEnumValue _ _ := rfl
  hasImports := by
    cases imports with
    | nil => exact absurd rfl himports
    | cons i is => exact (Bool.or_true _).symm

/--
**Imports only silence unresolved references.**  A file that is given imports, where it had none
or in place of others, declares the same names.  Its descriptor changes in the imports alone, and
of its diagnostics those about unresolved references are gone and all others are there in the
same order.
-/
theorem describe_withImports (file : File) (name : String) (symbols : SymbolTable)
    (imports : List Import) (himports : imports ≠ []) :
    SymbolTable.ofFile { file with imports } = SymbolTable.ofFile file ∧
      ({ file with imports } : File).describe name symbols =
        ⟨{ (file.describe name symbols).value with
            dependencies := imports.map Import.path
            publicDependencies := ({ file with imports } : File).importPlaces .publicImport
            weakDependencies := ({ file with imports } : File).importPlaces .weakImport },
          (file.describe name symbols).diagnostics.filter (!·.isUnresolved)⟩ := by
  have hstill : file.moved Change.silent.relocation = file := file.moved_still
  have hcontext : (file.context symbols).Changed .silent
      (({ file.moved Change.silent.relocation with imports } : File).context symbols) := by
    rw [hstill]
    exact file.silent_context himports symbols
  have hvalue : ∀ d : FileDescriptor, d.moved Change.silent.relocation = d :=
    Relocation.stays_still.fileDescriptor
  have hdescribe := file.describe_changed .silent name imports hcontext
  rw [hstill, Checked.told, Change.diagnostics_silent, hvalue] at hdescribe
  exact ⟨rfl, hdescribe⟩

/-- The file of one message, with a field of a type that it does not declare. -/
def lacking : File :=
  let s := Span.point 0
  { File.empty with
    messages := [⟨⟨"Lacking", s⟩,
      [.field ⟨none, .plain (.named ⟨none, ⟨"Thing", s⟩, []⟩) s, ⟨"thing", s⟩, ⟨false, 1, s⟩,
        none, s⟩,
      .field ⟨none, .plain (.scalar .int32) s, ⟨"other", s⟩, ⟨false, 1, s⟩, none, s⟩],
      [], [], [], s⟩] }

/-- An import makes up for the type, and not for the number that is used twice. -/
theorem describe_withImports_lacking :
    [(⟨none, "things.proto", .point 0, .point 0⟩ : Import)] ≠ [] ∧
      lacking.imports = [] ∧
      (lacking.describe "lacking.proto" .empty).diagnostics =
        [.unresolvedType "Thing" (.point 0), .duplicateNumber 1 (.point 0) (.point 0)] ∧
      (({ lacking with imports := [⟨none, "things.proto", .point 0, .point 0⟩] } : File).describe
          "lacking.proto" .empty).diagnostics = [.duplicateNumber 1 (.point 0) (.point 0)] := by
  have hplain : (lacking.describe "lacking.proto" .empty).diagnostics =
      [.unresolvedType "Thing" (.point 0), .duplicateNumber 1 (.point 0) (.point 0)] := by
    decide +kernel
  have himports : [(⟨none, "things.proto", .point 0, .point 0⟩ : Import)] ≠ [] :=
    List.cons_ne_nil _ _
  have h := (lacking.describe_withImports "lacking.proto" .empty _ himports).2
  refine ⟨himports, rfl, hplain, ?_⟩
  rw [h, hplain]
  rfl

end File

end ProtoSchema
