/-
What checking reports, whatever the order of its places.

Checking never works out a place of its own: every diagnostic points to nodes of the tree,
and two of them if it compares two declarations.  So its places stand in the source because
those of the tree do, no matter how the two places of a repetition stand to each other.  Nor
does checking look at the text again: what only the scanner can tell, it never reports.
-/
import ProtoSchema.Proofs.Positions.Checks

namespace ProtoSchema

variable {source : List Char}

namespace Checked

variable {α : Type}

/-- Any two stretches of the source will do. -/
def Anyhow (_ _ : Span) : Prop := True

theorem anyhow {β : Type} [Node β] (xs : List β) : xs.Pairwise (Related source Anyhow) :=
  List.pairwise_of_forall fun _ _ _ _ _ _ => trivial

/-- What is wrong with the declarations of a file has any property that a repetition has anyhow. -/
theorem All.describe_anyhow {P : Diagnostic → Prop} (hadmits : Diagnostic.Admits source Anyhow P)
    {file : File} (hf : file.LiesIn source) (name : String) (symbols : SymbolTable) :
    All P (file.describe name symbols) := by
  refine All.describe name (fun scope f h => ?_) (fun scope o h => ?_) (fun scope e h => ?_)
    (fun scope e h => ?_) (fun scope m h => ?_) (fun s hs => ?_) ?_
  · exact All.fieldParts _ scope hadmits 0 (hf.holds h).of_field (anyhow _)
  · exact All.oneofParts _ scope hadmits 0 (hf.holds h).of_oneof (fun _ _ => anyhow _) (anyhow _)
  · exact All.enum _ hadmits (hf.holds h).of_enum (fun _ _ => anyhow _) (anyhow _)
  · exact All.extensions _ scope hadmits (hf.holds h).of_extend fun _ _ => anyhow _
  · exact All.closing _ scope hadmits (hf.holds h).of_message (fun _ _ => anyhow _) (anyhow _)
      (anyhow _)
  · exact All.service _ _ hadmits (hf.services s hs) (fun _ _ => anyhow _) (anyhow _)
  · exact All.optionsOf hadmits (lies_settings hf.options) (anyhow _)

/-- Everything that is reported stands in the source. -/
abbrev Fits (source : List Char) : Checked α → Prop := All (Diagnostic.Fits source)

/-- What is wrong with the declarations of a file stands in the source. -/
theorem Fits.describe {file : File} (hf : file.LiesIn source) (name : String)
    (symbols : SymbolTable) : Fits source (file.describe name symbols) := by
  refine .describe_anyhow ⟨fun _ h => h.fits, fun h h₁ h₂ _ => ?_⟩ hf name symbols
  exact Diagnostic.fits_of_repetition h h₁ h₂

/-- What is wrong with the declarations of a file is nothing that the scanner reports. -/
theorem All.not_isOfScanner_describe {file : File} (hf : file.LiesIn source) (name : String)
    (symbols : SymbolTable) :
    All (fun d => d.isOfScanner = false) (file.describe name symbols) := by
  refine .describe_anyhow ⟨fun _ h => h.checked, fun {d} _ _ h _ _ _ => ?_⟩ hf name symbols
  cases d <;> cases h <;> rfl

end Checked

end ProtoSchema
