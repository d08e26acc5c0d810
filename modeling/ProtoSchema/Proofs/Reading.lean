/-
What a text is read as.

A text is read as its characters, unless it is too large.  These are read as a schema if they were
parsed to their end, and then everything in the schema is made from the tree: the descriptor is
what describing the tree comes to, and the report has what was found on the way, by parsing, by
naming and by describing, sorted by place.  All that is proved of texts begins with this
(`tree_of_readText`), so nothing else has to know how a text is read.

The last lemmas are for texts that are given.  Whether what is read of such a text passes a test can
be decided.  For a long one it is decided on the characters: these are at hand in the text as it is
written, while counting its bytes, or taking it apart again, goes over the text once for every
character.
-/
import ProtoSchema.Proofs.Linking.Types
import ProtoSchema.Schema

namespace ProtoSchema

variable {name source : String} {schema : Schema}

/-- What is read is made from a tree, and its report has what was found on the way. -/
theorem tree_of_readText (h : readText name source = .ok schema) :
    ∃ file parsing, parseFile source.toList = .tree file parsing ∧
      schema.descriptor = (file.describe name (SymbolTable.ofFile file).1).value ∧
      schema.report.diagnostics.Perm (parsing ++ ((SymbolTable.ofFile file).2 ++
        (file.describe name (SymbolTable.ofFile file).1).diagnostics)) := by
  unfold readText readChars at h
  split at h
  · cases h
  dsimp only at h
  split at h
  · cases h
  · rename_i file parsing hparse
    obtain rfl := Except.ok.inj h
    refine ⟨file, parsing, hparse, rfl, ?_⟩
    rw [← List.append_assoc]
    exact Diagnostic.sortByStart_perm _

/-- A source without diagnostics was parsed, declares no name twice and breaks no rule. -/
theorem clean_of_readText (h : readText name source = .ok schema)
    (hclean : schema.report.diagnostics = []) :
    ∃ file, parseFile source.toList = .tree file [] ∧ (SymbolTable.ofFile file).2 = [] ∧
      (file.describe name (SymbolTable.ofFile file).1).Clean ∧
      schema.descriptor = (file.describe name (SymbolTable.ofFile file).1).value := by
  obtain ⟨file, parsing, hparse, hdesc, hreport⟩ := tree_of_readText h
  rw [hclean] at hreport
  have hnil := hreport.nil_eq.symm
  rw [List.append_eq_nil_iff, List.append_eq_nil_iff] at hnil
  obtain ⟨rfl, hnames, hrules⟩ := hnil
  exact ⟨file, hparse, hnames, hrules, hdesc⟩

/-! ### Texts that are given -/

/-- A test of what is read holds only if something is read. -/
theorem exists_of_any_readText {test : Schema → Bool}
    (h : ((readText name source).toOption.any test) = true) :
    ∃ schema, readText name source = .ok schema ∧ test schema = true := by
  cases heq : readText name source with
  | error failure =>
      rw [heq] at h
      cases h
  | ok schema =>
      rw [heq] at h
      exact ⟨schema, rfl, h⟩

theorem utf8ByteSize_ofList_le (cs : List Char) :
    (String.ofList cs).utf8ByteSize ≤ 4 * cs.length := by
  induction cs with
  | nil => exact Nat.le_refl _
  | cons c cs ih =>
      have hc := c.utf8Size_le_four
      rw [String.ofList_cons, String.utf8ByteSize_append, String.utf8ByteSize_singleton,
        List.length_cons]
      omega

/-- A test of what is read of some characters is one of what is read of their text. -/
theorem exists_of_any_readChars (name source : String) {cs : List Char}
    (hsource : source = String.ofList cs) (hsize : 4 * cs.length ≤ maxSourceSize)
    (test : Schema → Bool) (h : ((readChars name cs).toOption.any test) = true) :
    ∃ schema, readText name source = .ok schema ∧ test schema = true := by
  subst hsource
  have hsmall : ¬maxSourceSize < (String.ofList cs).utf8ByteSize :=
    Nat.not_lt.mpr (Nat.le_trans (utf8ByteSize_ofList_le cs) hsize)
  refine exists_of_any_readText ?_
  unfold readText
  rw [if_neg hsmall, String.toList_ofList]
  exact h

end ProtoSchema
