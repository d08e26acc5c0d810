/-
The places that parsing gives.

A file is put together statement by statement, and each statement stands where it was read.
What is wrong with the place of a statement is reported at that statement and at an earlier
one, both of which stand in the source.
-/
import ProtoSchema.Proofs.Grammar.Means
import ProtoSchema.Proofs.Positions.Productions
import ProtoSchema.Proofs.Parsing.BraceDiscipline

namespace ProtoSchema

variable {source : List Char}

/-- What stands anywhere in the source lies within all of it. -/
theorem Lies.whole {α : Type} [Node α] {outer : Span} {x : α} (h : Lies source outer x) :
    Lies source ⟨0, Utf8.size source⟩ x :=
  ⟨⟨h.within.fits, Nat.zero_le _, h.within.fits.inside⟩, h.nested⟩

namespace File.LiesIn

theorem empty (source : List Char) : File.empty.LiesIn source where
  dialectSpan s hs := by cases hs
  package p hp := by cases hp
  imports i hi := absurd hi List.not_mem_nil
  options o ho := absurd ho List.not_mem_nil
  messages m hm := absurd hm List.not_mem_nil
  enums e he := absurd he List.not_mem_nil
  extendBlocks e he := absurd he List.not_mem_nil
  services s hs := absurd hs List.not_mem_nil

/-- One more statement, and what is wrong with its place. -/
theorem place {file : File} {outer : Span} {st : Statement} (hf : file.LiesIn source)
    (hst : Lies source outer st) (first : Bool) :
    (file.place first st).1.LiesIn source ∧ ∀ d ∈ (file.place first st).2, d.Fits source := by
  have hfit : st.span.Fits source := hst.within.fits
  have hnested : st.Nested source := hst.nested
  -- A statement that comes a second time is reported with both places, and both are in the source.
  cases st with
  | dialect choice span =>
      simp only [File.place]
      split
      · rename_i earlier hearlier
        refine ⟨hf, fun d hd => ?_⟩
        obtain rfl := List.mem_singleton.mp hd
        exact .two rfl hfit (hf.dialectSpan earlier hearlier) hfit
      · split
        · refine ⟨{ hf with dialectSpan := fun s hs => ?_ }, fun d hd => (List.not_mem_nil hd).elim⟩
          obtain rfl := Option.some.inj hs
          exact hfit
        · refine ⟨hf, fun d hd => ?_⟩
          obtain rfl := List.mem_singleton.mp hd
          exact .one rfl hfit
  | package p =>
      simp only [File.place]
      split
      · rename_i earlier hearlier
        refine ⟨hf, fun d hd => ?_⟩
        obtain rfl := List.mem_singleton.mp hd
        exact .two rfl hfit (hf.package earlier hearlier).within.fits hfit
      · refine ⟨{ hf with package := fun q hq => ?_ }, fun d hd => (List.not_mem_nil hd).elim⟩
        obtain rfl := Option.some.inj hq
        have h : Lies source outer p := ⟨hst.within, hnested⟩
        exact h.whole
  | dependency i =>
      have h : Lies source outer i := ⟨hst.within, hnested⟩
      exact ⟨{ hf with imports := forall_mem_snoc hf.imports h.whole },
        fun d hd => (List.not_mem_nil hd).elim⟩
  | option o =>
      have h : Lies source outer o := ⟨hst.within, hnested⟩
      exact ⟨{ hf with options := forall_mem_snoc hf.options h.whole },
        fun d hd => (List.not_mem_nil hd).elim⟩
  | message m =>
      have h : Lies source outer m := ⟨hst.within, hnested⟩
      exact ⟨{ hf with messages := forall_mem_snoc hf.messages h.whole },
        fun d hd => (List.not_mem_nil hd).elim⟩
  | enum e =>
      have h : Lies source outer e := ⟨hst.within, hnested⟩
      exact ⟨{ hf with enums := forall_mem_snoc hf.enums h.whole },
        fun d hd => (List.not_mem_nil hd).elim⟩
  | extend e =>
      have h : Lies source outer e := ⟨hst.within, hnested⟩
      exact ⟨{ hf with extendBlocks := forall_mem_snoc hf.extendBlocks h.whole },
        fun d hd => (List.not_mem_nil hd).elim⟩
  | service s =>
      have h : Lies source outer s := ⟨hst.within, hnested⟩
      exact ⟨{ hf with services := forall_mem_snoc hf.services h.whole },
        fun d hd => (List.not_mem_nil hd).elim⟩

end File.LiesIn

namespace Parser.Traces

/-! ### The loop over statements

A statement has `S lo hi` if it is read from `lo` to `hi`, and then the file in the making has
`P hi`. -/

section

variable {P : Nat → File → Prop} {S : Nat → Nat → Statement → Prop}
  (hstatement : ∀ lo, Traces source lo (S lo) Parser.statement)
  (hmono : ∀ lo hi file, lo ≤ hi → P lo file → P hi file)
  (hplace : ∀ lo hi file st first, P lo file → S lo hi st →
    P hi (file.place first st).1 ∧ ∀ d ∈ (file.place first st).2, d.Fits source)

include hstatement hmono hplace

theorem nextStatement (lo : Nat) (draft : Draft) (hd : P lo draft.file) :
    Traces source lo (fun hi next => ∀ d : Draft, next = some d → P hi d.file)
      (nextStatement draft) := by
  have hdraft : ∀ (mid : Nat) (file : File) (first : Bool), P mid file → Traces source mid
      (fun hi next => ∀ d : Draft, next = some d → P hi d.file)
      (Pure.pure (some ⟨file, first⟩)) := by
    intro mid file first hfile
    refine pure fun d hd => ?_
    obtain rfl := Option.some.inj hd
    exact hfile
  unfold Parser.nextStatement
  refine peek fun t? => ?_
  split
  · exact pure fun d h => by cases h
  · exact bind (acceptMark? .semicolon) fun _ mid hle _ => hdraft mid _ _ (hmono _ _ _ hle hd)
  · refine bind (attempt (hstatement lo)) fun found mid hle hfound => ?_
    cases found with
    | some st =>
        obtain ⟨hfile, hds⟩ := hplace _ _ _ _ draft.first hd (hfound st rfl)
        refine bind (Q := fun _ _ => True) (fun inBody r hr => ?_) fun _ mid' hle' _ =>
          hdraft mid' _ _ (hmono _ _ _ hle' hfile)
        rw [reportAll_run]
        refine ⟨mid, Nat.le_refl mid, trivial, hr.ordered, hr.lexemes, fun d hd => ?_, fun hlog => ?_⟩
        · rcases List.mem_append.mp hd with hd | hd
          · exact hds d (List.mem_reverse.mp hd)
          · exact hr.log d hd
        · exact hr.gone (List.append_eq_nil_iff.mp hlog).2
    | none =>
        have hskipped : ∀ mid', mid ≤ mid' → P mid' draft.file := fun mid' hle' =>
          hmono _ _ _ (Nat.le_trans hle hle') hd
        dsimp only
        split
        · exact bind (acceptMark? .rightBrace) fun _ mid' hle' _ =>
            hdraft mid' _ _ (hskipped mid' hle')
        · exact bind recover fun _ mid' hle' _ => hdraft mid' _ _ (hskipped mid' hle')

end

theorem file {P : Nat → File → Prop} (hmono : ∀ lo hi file, lo ≤ hi → P lo file → P hi file)
    (hturn : ∀ lo draft, P lo draft.file → Traces source lo
      (fun hi next => ∀ d : Draft, next = some d → P hi d.file) (Parser.nextStatement draft))
    (hempty : P 0 .empty) : Traces source 0 P file := by
  unfold Parser.file
  refine bind (Q := fun hi (d : Draft) => P hi d.file) ?_ fun draft mid _ hd => pure hd
  exact iterate (fun lo hi d hle hd => hmono lo hi d.file hle hd) hturn hempty

theorem file_liesIn (source : List Char) : Traces source 0 (fun _ f => f.LiesIn source) Parser.file :=
  file (fun _ _ _ _ hf => hf)
    (nextStatement statement (fun _ _ _ _ hf => hf) fun _ _ _ _ first hf hst => hf.place hst first)
    (.empty source)

end Parser.Traces

/-- Whatever parsing gives stands in the source: the tree with its parts, and the diagnostics. -/
theorem liesIn_of_parseFile (source : List Char) :
    (∀ d ∈ (parseFile source).diagnostics, d.Fits source) ∧
      ∀ file ds, parseFile source = .tree file ds → file.LiesIn source := by
  have h := Parser.Traces.file_liesIn source false ⟨scan source, []⟩ (.start source)
  unfold parseFile
  split
  · rename_i file r hrun
    rw [hrun] at h
    obtain ⟨hi, -, hfile, hr⟩ := h
    refine ⟨fun d hd => hr.log d (List.mem_reverse.mp hd), fun file' ds heq => ?_⟩
    obtain ⟨rfl, -⟩ := ParseResult.tree.inj heq
    exact hfile
  · rename_i reason r hrun
    rw [hrun] at h
    exact ⟨fun d hd => h.log d (List.mem_reverse.mp hd), fun file ds heq => by cases heq⟩

/-- A source about which there is nothing to report consists of tokens. -/
theorem clean_of_parseFile {file : File} (h : parseFile source = .tree file []) :
    Clean (scan source) := by
  have hplaced := Parser.Traces.file_liesIn source false ⟨scan source, []⟩ (.start source)
  have hend : Parser.FileEnd ⟨scan source, []⟩
      (Parser.iterate Parser.nextStatement ⟨.empty, true⟩ ⟨source, false⟩ ⟨scan source, []⟩) :=
    Parser.evolve_nextStatement rfl (scan source) _ _ (Nat.le_refl _)
  unfold parseFile at h
  unfold Parser.file at h hplaced
  rw [Parser.bind_run] at h hplaced
  generalize Parser.iterate Parser.nextStatement ⟨.empty, true⟩ ⟨source, false⟩ ⟨scan source, []⟩ = o
    at h hplaced hend
  cases hend with
  | tree surveys ends told =>
      obtain ⟨_, -, -, hr⟩ := hplaced
      obtain ⟨-, hlog⟩ := ParseResult.tree.inj h
      refine fun l hl => hr.gone (List.reverse_eq_nil_iff.mp hlog) l hl ?_
      rw [ends]
      exact List.not_mem_nil
  | eof surveys ends =>
      obtain ⟨-, hlog⟩ := ParseResult.tree.inj h
      rw [List.reverse_cons] at hlog
      exact absurd hlog (List.append_ne_nil_of_right_ne_nil _ (List.cons_ne_nil _ _))
  | unclosed surveys ends mem => cases h

end ProtoSchema
