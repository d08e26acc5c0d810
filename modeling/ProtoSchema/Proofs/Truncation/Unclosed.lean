/-
A source that ends within a body.

The statements before the cut are read as before, and reported on at most as to where they stand
in the file.  The statement that the cut goes through has the body that is open, so the parse
is halted within it, and the last thing to be reported is the innermost body.
-/
import ProtoSchema.Proofs.Truncation.Bodies
import ProtoSchema.Proofs.Truncation.Scanning

namespace ProtoSchema

open ProtoSchema.Parser

/-- The innermost body depends on which bodies there are only. -/
theorem Innermost.congr {source : List Char} {offset : Nat} {bodies bodies' : List BodyNode}
    {b : BodyNode} {opening : Span} (h : Innermost source offset bodies b opening)
    (hmem : ∀ b, b ∈ bodies' ↔ b ∈ bodies) : Innermost source offset bodies' b opening where
  mem := (hmem b).mpr h.mem
  isOpen := h.isOpen
  last b' hb' := h.last b' ((hmem b').mp hb')

/-! ### Statements -/

section Statements

variable {env : Surroundings} {draft : Draft} {log : List Diagnostic} {ls : List Lexeme} {t : Token}
  {s : Span}

theorem nextStatement_token (ht : t ≠ .mark .rightBrace) (ht' : t ≠ .mark .semicolon) :
    nextStatement draft env ⟨.token t s :: ls, log⟩ =
      match statement env ⟨.token t s :: ls, log⟩ with
      | .done st r' =>
        .done (some ⟨(draft.file.place draft.first st).1, false⟩)
          ⟨r'.lexemes, (draft.file.place draft.first st).2.reverse ++ r'.log⟩
      | .halted .mismatch r' =>
        .done (some { draft with first := false }) (skipStatement 0 r'.log r'.lexemes)
      | .halted reason r' => .halted reason r' := nextStatement_statement rfl ht' ht

/-- What there is to report about a statement that was read is about its place in the file. -/
theorem nextStatement_done {st : Statement} {rest : List Lexeme} (ht : t ≠ .mark .rightBrace)
    (ht' : t ≠ .mark .semicolon)
    (h : statement env ⟨.token t s :: ls, log⟩ = .done st ⟨rest, log⟩) :
    ∃ draft' new, Incidental new ∧ nextStatement draft env ⟨.token t s :: ls, log⟩ =
      .done (some draft') ⟨rest, new ++ log⟩ := by
  refine ⟨⟨(draft.file.place draft.first st).1, false⟩,
    (draft.file.place draft.first st).2.reverse, fun d hd => ?_, ?_⟩
  · rw [File.category_place draft.file draft.first st d (List.mem_reverse.mp hd)]
    exact Diagnostic.Category.noConfusion
  · rw [nextStatement_token ht ht', h]

theorem nextStatement_unclosed {r : Remainder} (ht : t ≠ .mark .rightBrace)
    (ht' : t ≠ .mark .semicolon)
    (h : statement env ⟨.token t s :: ls, log⟩ = .halted .unclosed r) :
    nextStatement draft env ⟨.token t s :: ls, log⟩ = .halted .unclosed r := by
  rw [nextStatement_token ht ht', h]

theorem evolve_halted {r r' : Remainder} {reason : Halt}
    (h : nextStatement draft env r = .halted reason r') (turns : List Lexeme) :
    evolve nextStatement turns draft env r = .halted reason r' := by
  cases turns <;> exact bind_halted h

end Statements

/-- The induction is on the statements; those before the cut are read, and the next one ends it. -/
theorem exists_fatal {w : Cut} {offset : Nat} {sts : List Statement} {ds : List Diagnostic}
    {ls tail : List Lexeme} (h : Rule.Members Rule.statement w.source ls sts ds tail) :
    ∀ before front log (turns : List Lexeme) draft, ds = [] → tail = [] →
      ls = front ++ w.back → front.length ≤ turns.length → w.Parts offset (before ++ front) →
      ¬ NoneOpen w.source offset (sts.flatMap Statement.bodies) →
      ∃ b opening, Innermost w.source offset (sts.flatMap Statement.bodies) b opening ∧
        Fatal log b.kind opening
          (evolve nextStatement turns draft ⟨w.pre, false⟩ ⟨front, log⟩) := by
  have hspan := Rule.Spans.statement
  have hshape := Rule.Shapes.statement
  induction h with
  | nil ls => exact fun _ _ _ _ _ _ _ _ _ _ hopen => absurd .nil hopen
  | @semicolon ls tail s sts ds others ih =>
      intro before front log turns draft hds htail hls hturns hw hopen
      subst hds
      cases front with
      | nil => exact absurd (noneOpen_at_cut hspan hshape hw hls (.semicolon others)) hopen
      | cons l front =>
          obtain ⟨rfl, hls'⟩ := List.cons.inj hls
          rw [List.length_cons] at hturns
          obtain ⟨l, turns, rfl⟩ := List.exists_cons_of_length_pos (by omega : 0 < turns.length)
          rw [List.length_cons] at hturns
          rw [evolve_nextStatement_some (nextStatement_semicolon rfl)]
          have hw' : w.Parts offset ((before ++ [.token (.mark .semicolon) s]) ++ front) := by
            simpa using hw
          exact ih _ front log turns draft rfl htail hls' (by omega) hw' hopen
  | @member ls mid tail st sts ds₁ ds₂ first others ih =>
      intro before front log turns draft hds htail hls hturns hw hopen
      obtain ⟨rfl, rfl⟩ := List.append_eq_nil_iff.mp hds
      cases front with
      | nil => exact absurd (noneOpen_at_cut hspan hshape hw hls (.member first others)) hopen
      | cons l front =>
          subst hls
          rw [List.flatMap_cons] at hopen ⊢
          have hdeclares := declares_statement (l :: front ++ w.back).length
          obtain ⟨t, s, rfl, hright, hsemi⟩ := hdeclares.exists_first first
          obtain ⟨hsuf, hshort⟩ := hdeclares.exists_front first
          rcases cut_cases hsuf with ⟨kept, rfl, hkept⟩ | ⟨hback, hlt⟩
          · -- This statement ends before the cut and is read as in the whole source.
            have hnone := noneOpen_of_before hspan hshape hw hkept first
            obtain ⟨st', hrun⟩ := hdeclares.exists_before hw.keeps_right hkept
              (List.length_append ▸ Nat.le_add_right _ _) first false log
            obtain ⟨draft', new, hnew, hnext⟩ := nextStatement_done hright hsemi hrun
            obtain ⟨taken, htaken⟩ := hkept
            rw [List.length_append, List.length_append] at hshort
            obtain ⟨l, turns, rfl⟩ := List.exists_cons_of_length_pos (by omega : 0 < turns.length)
            have hturns : (Lexeme.token t s :: front).length ≤ turns.length + 1 := hturns
            have hw' : w.Parts offset ((before ++ taken) ++ kept) := by
              rwa [List.append_assoc, htaken]
            obtain ⟨b, opening, hinnermost, hfatal⟩ := ih _ kept (new ++ log) turns draft' rfl htail
              rfl (by omega) hw' fun h => hopen (hnone.append h)
            refine ⟨b, opening, hinnermost.append_left hnone, ?_⟩
            rw [evolve_nextStatement_some hnext]
            exact hfatal.prepend hnew
          · -- The cut goes through this statement, so the open body is one of its own.
            have hbehind := noneOpen_of_members hspan hshape hw hback others
            have hrun := (hdeclares.complete ⟨w.source, false⟩ _ log st [] mid hw.keeps_right.all
              (Nat.le_refl _) first).2
            have hparted := parted hspan hshape hw first hback hlt
            rcases Leads.statement.fatal hw (Nat.le_refl _) hparted hrun
              (fun inner _ => unfinished w offset inner) with
              ⟨hnone, -⟩ | ⟨b, opening, hinnermost, hfatal⟩
            · exact absurd (hnone.append hbehind) hopen
            · exact ⟨b, opening, hinnermost.append_right hbehind, hfatal.of_eq fun r hr =>
                evolve_halted (nextStatement_unclosed hright hsemi hr) turns⟩

/--
**A source that ends within a body is not parsed.**  Take a source that is parsed without a
remark, and cut it behind a token at which at least one body is open.  Then the parse of what
is left gives no tree.  The last thing it reports is the innermost body that is open at the cut,
with its kind and the place of its opening brace, and nothing else that it reports is about the
grammar.
-/
theorem unclosed_of_cut {source pre post : List Char} {file : File} {t : Token} {s : Span}
    (h : parseFile source = .tree file []) (hsource : source = pre ++ post)
    (ht : .token t s ∈ scan source) (hs : s.stop = Utf8.size pre)
    (hopen : ∃ b ∈ file.bodies, ∃ opening, b.OpenAt source (Utf8.size pre) opening) :
    ∃ ds b opening, Innermost source (Utf8.size pre) file.bodies b opening ∧
      parseFile pre = .unclosed (ds ++ [.unterminatedBody b.kind opening]) ∧
      ∀ d ∈ ds, d.category ≠ .grammatical := by
  have hc := clean_of_parseFile h
  obtain ⟨back, hscan, hbefore, hbehind⟩ := scan_cut hsource hc ht hs
  obtain ⟨sts, hmembers, -, hbodies⟩ := line_of_parseFile h
  have hback : Clean back := hc.of_suffix (hscan ▸ List.suffix_append _ _)
  have hpre : Clean (scan pre) := fun l hl => hc l (hscan ▸ List.mem_append_left _ hl)
  let w : Cut := ⟨source, pre, back, hback⟩
  -- The tokens before the cut have the same texts in both sources.
  have hkeeps : w.Keeps (scan pre) := by
    refine ⟨hpre, fun a ha b hb => ?_⟩
    rw [show w.source = pre ++ post from hsource]
    have hle := (fits_of_mem_scan hb).inside
    have hlt := start_lt_stop_of_mem_scan hb
    exact slice_cut post ha (by omega)
  have hw : w.Parts (Utf8.size pre) ([] ++ scan pre) := ⟨hscan, hbefore, hbehind, hkeeps⟩
  have hnot : ¬ NoneOpen source (Utf8.size pre) (sts.flatMap Statement.bodies) := by
    obtain ⟨b, hb, opening, ho⟩ := hopen
    exact fun hnone => hnone b ((hbodies b).mp hb) opening ho
  obtain ⟨b, opening, hinnermost, new, hnew, hrun⟩ :=
    exists_fatal (w := w) hmembers [] (scan pre) [] (scan pre) ⟨.empty, true⟩ rfl rfl hscan
      (Nat.le_refl _) hw hnot
  refine ⟨new.reverse, b, opening, hinnermost.congr hbodies, ?_, fun d hd =>
    hnew d (List.mem_reverse.mp hd)⟩
  have hfile : Parser.file ⟨pre, false⟩ ⟨scan pre, []⟩ =
      .halted .unclosed ⟨[], .unterminatedBody b.kind opening :: (new ++ [])⟩ := bind_halted hrun
  rw [parseFile, hfile]
  simp

/-- A body in a body. -/
def oneofInMessage : List Char := "message A{oneof k{int32 x=1;}}".toList

/-- The same, cut behind the name of the field. -/
def cutInOneof : List Char := oneofInMessage.take 25

theorem unclosed_of_cutInOneof :
    ∃ file, parseFile oneofInMessage = .tree file [] ∧
      ∃ ds b opening, Innermost oneofInMessage (Utf8.size cutInOneof) file.bodies b opening ∧
        parseFile cutInOneof = .unclosed (ds ++ [.unterminatedBody b.kind opening]) ∧
        ∀ d ∈ ds, d.category ≠ .grammatical := by
  have hparse : ((parseFile oneofInMessage).casesOn
      (fun file ds => ds.isEmpty && file.bodies.contains ⟨.oneof, ⟨10, 29⟩, [⟨18, 28⟩]⟩)
      (fun _ => false) : Bool) = true := by decide +kernel
  have hcut : oneofInMessage = cutInOneof ++ oneofInMessage.drop 25 :=
    (List.take_append_drop 25 oneofInMessage).symm
  have htoken : .token (.ident "x") ⟨24, 25⟩ ∈ scan oneofInMessage := by decide +kernel
  have hsize : 25 = Utf8.size cutInOneof := by decide +kernel
  have hopen : BodyNode.OpenAt oneofInMessage (Utf8.size cutInOneof)
      ⟨.oneof, ⟨10, 29⟩, [⟨18, 28⟩]⟩ ⟨17, 18⟩ :=
    ⟨⟨28, 29⟩, by decide +kernel, by decide +kernel, by decide +kernel⟩
  cases heq : parseFile oneofInMessage with
  | unclosed ds =>
      rw [heq] at hparse
      cases hparse
  | tree file ds =>
      rw [heq] at hparse
      obtain ⟨hds, hbody⟩ := Bool.and_eq_true_iff.mp hparse
      obtain rfl : ds = [] := List.isEmpty_iff.mp hds
      exact ⟨file, rfl, unclosed_of_cut heq hcut htoken hsize
        ⟨_, List.contains_iff_mem.mp hbody, _, hopen⟩⟩

end ProtoSchema
