/-
Notes of the scanner are passed on.

The scanner leaves its notes between the tokens, and a parser moves them to the log as it comes by.
On the way it reports what it finds itself: characters that start no token, what was not expected,
and a few things about single words and statements.  It makes no other diagnostics, and it neither
drops a note nor takes one twice, however it ends and wherever it starts over.

So what is in the log and what is still ahead make up the same notes before and after a parser
(`Keeps`).  This needs no invariant about what is read, and every production keeps notes because
its parts do.  Nothing depends on which kinds of diagnostics are left out of the comparison, as long
as they take in all that productions report (`Retains`).  So productions keep silent on the places
of statements as well, which only the loop over statements knows.

At the end nothing of a source is ahead, and what was not found by the parser is what the scanner
noted, in its order.  Above all, nothing of what parsing reports is about the meaning of a
declaration.
-/
import ProtoSchema.Proofs.Parsing.BraceDiscipline
import ProtoSchema.Proofs.Parsing.Hereditary
import ProtoSchema.Proofs.Parsing.Notes

namespace ProtoSchema

/-- Whether a diagnostic is one that parsers find themselves. -/
def Diagnostic.isOfParser : Diagnostic → Bool
  | invalidToken .. | invalidUtf8String _ | unexpectedToken .. | unexpectedEof .. | invalidImport _
  | negativeIdent _ | unterminatedBody .. | unknownSyntax .. | syntaxNotFirst _
  | duplicateSyntax .. | duplicatePackage .. => true
  | _ => false

theorem Diagnostic.category_of_isOfParser {d : Diagnostic} (h : d.isOfParser = true) :
    d.category ≠ .semantic := by
  cases d <;> first | exact Category.noConfusion | cases h

/-- The diagnostics among some that parsers do not find themselves. -/
def notesAmong (ds : List Diagnostic) : List Diagnostic := ds.filter (!·.isOfParser)

theorem notesAmong_append (ds es : List Diagnostic) :
    notesAmong (ds ++ es) = notesAmong ds ++ notesAmong es := List.filter_append ..

/-- Whether a diagnostic is about the place of a statement in its file. -/
def Diagnostic.isOfPlace : Diagnostic → Bool
  | syntaxNotFirst _ | duplicateSyntax .. | duplicatePackage .. => true
  | _ => false

/-- Kinds of diagnostics, all those among them that productions find themselves. -/
structure Findings where
  mem : Diagnostic → Bool
  ofProduction : ∀ d : Diagnostic, d.isOfProduction = true → mem d = true

namespace Findings

/-- All that is found in parsing. -/
def ofParser : Findings :=
  ⟨Diagnostic.isOfParser, fun d h => by cases d <;> first | rfl | cases h⟩

/-- All but what is wrong with the places of statements. -/
def butPlaces : Findings :=
  ⟨fun d => !d.isOfPlace, fun d h => by cases d <;> first | rfl | cases h⟩

variable (own : Findings)

/-- The diagnostics among some that are of other kinds. -/
def others (ds : List Diagnostic) : List Diagnostic := ds.filter (!own.mem ·)

/-- The diagnostics of other kinds in the log and among the notes ahead, in their order. -/
def told (r : Remainder) : List Diagnostic :=
  own.others r.log.reverse ++ own.others (r.lexemes.filterMap Lexeme.note?)

variable {own}

theorem told_report {d : Diagnostic} (hd : own.mem d = true) (ls : List Lexeme)
    (log : List Diagnostic) : own.told ⟨ls, d :: log⟩ = own.told ⟨ls, log⟩ := by
  unfold told others
  rw [List.reverse_cons, List.filter_append, List.filter_cons_of_neg (by simp [hd]),
    List.filter_nil, List.append_nil]

theorem told_note (d : Diagnostic) (ls : List Lexeme) (log : List Diagnostic) :
    own.told ⟨ls, d :: log⟩ = own.told ⟨.note d :: ls, log⟩ := by
  unfold told others
  rw [List.reverse_cons, List.filter_append, List.append_assoc, ← List.filter_append]
  rfl

theorem told_illegal (c : Char) (s : Span) (ls : List Lexeme) (log : List Diagnostic) :
    own.told ⟨ls, .invalidToken c s :: log⟩ = own.told ⟨.illegal c s :: ls, log⟩ :=
  told_report (own.ofProduction _ rfl) ls log

theorem told_token (t : Token) (s : Span) (ls : List Lexeme) (log : List Diagnostic) :
    own.told ⟨ls, log⟩ = own.told ⟨.token t s :: ls, log⟩ := rfl

theorem told_settleWith (ls : List Lexeme) :
    ∀ log, own.told (Remainder.settleWith log ls) = own.told ⟨ls, log⟩ := by
  induction ls with
  | nil => intro log; rfl
  | cons l ls ih =>
      intro log
      cases l with
      | token t s => rfl
      | illegal c s => exact (ih _).trans (told_illegal c s ls log)
      | note d => exact (ih _).trans (told_note d ls log)

theorem told_settle (r : Remainder) : own.told r.settle = own.told r :=
  told_settleWith r.lexemes r.log

end Findings

/-- The notes of the scanner in the log and ahead, in their order. -/
def Remainder.noted (r : Remainder) : List Diagnostic :=
  notesAmong r.log.reverse ++ notesAmong (r.lexemes.filterMap Lexeme.note?)

/-- What is left when a parser ends, one way or the other. -/
def Outcome.rest {α : Type} : Outcome α → Remainder
  | done _ r | halted _ r => r

namespace Parser

open Findings Remainder

variable {α β : Type} {own : Findings}

/-- A parser that neither drops nor adds a diagnostic of the other kinds. -/
def Retains (own : Findings) (p : Parser α) : Prop :=
  ∀ env r, own.told (p env r).rest = own.told r

/-- A parser that neither drops a note nor adds one. -/
def Keeps (p : Parser α) : Prop := ∀ env r, (p env r).rest.noted = r.noted

namespace Retains

/-! ### Sequences -/

theorem pure (a : α) : Retains own (Pure.pure a : Parser α) := fun _ _ => rfl

theorem halt (reason : Halt) : Retains own (Parser.halt reason : Parser α) := fun _ _ => rfl

theorem bind {p : Parser α} {f : α → Parser β} (hp : Retains own p) (hf : ∀ a, Retains own (f a)) :
    Retains own (p >>= f) := by
  intro env r
  have h := hp env r
  rw [bind_run]
  cases hrun : p env r with
  | done a r' =>
      rw [hrun] at h
      exact (hf a env r').trans h
  | halted reason r' =>
      rw [hrun] at h
      exact h

/-! ### Single tokens -/

theorem report {d : Diagnostic} (hd : own.mem d = true) : Retains own (report d) :=
  fun _ r => told_report hd r.lexemes r.log

theorem peek : Retains own peek := by
  intro env r
  rw [peek_run]
  exact told_settle r

theorem unexpected (e : Expectation) : Retains own (unexpected e : Parser α) := by
  intro env r
  rcases settle_lexemes r with h | ⟨t, s, ls, h⟩
  · rw [unexpected_run_nil e env h]
    split
    · exact told_settle r
    · rw [← told_settle r, ← h]
      exact told_report (own.ofProduction _ rfl) _ _
  · rw [unexpected_run_token e env h, ← told_settle r]
    exact told_report (own.ofProduction _ rfl) _ _

theorem accept? (want : Token → Span → Option α) : Retains own (accept? want) := by
  intro env r
  rcases settle_lexemes r with h | ⟨t, s, ls, h⟩
  · rw [accept?_run_nil want env h]
    exact told_settle r
  · cases hw : want t s with
    | none =>
        rw [accept?_run_none env h hw]
        exact told_settle r
    | some a =>
        rw [accept?_run_some env h hw, ← told_settle r]
        show own.told ⟨ls, r.settle.log⟩ = own.told ⟨r.settle.lexemes, r.settle.log⟩
        rw [h]
        exact told_token t s ls _

/-! ### Recovery and blocks -/

theorem attempt {p : Parser α} (hp : Retains own p) : Retains own (attempt p) := by
  intro env r
  have h := hp env r
  unfold Parser.attempt
  cases hrun : p env r with
  | done a r' =>
      rw [hrun] at h
      exact h
  | halted reason r' =>
      rw [hrun] at h
      cases reason <;> exact h

theorem told_skipStatement (ls : List Lexeme) :
    ∀ depth log, own.told (skipStatement depth log ls) = own.told ⟨ls, log⟩ := by
  induction ls with
  | nil => intro depth log; rfl
  | cons l ls ih =>
      intro depth log
      cases l with
      | note d => exact (ih depth _).trans (told_note d ls log)
      | illegal c s => exact (ih depth _).trans (told_illegal c s ls log)
      | token t s =>
          rw [skipStatement.eq_def]
          dsimp only
          split
          · exact ih _ log
          · cases depth with
            | zero =>
                dsimp only
                split
                · rfl
                · split
                  · rfl
                  · exact ih _ log
            | succ depth =>
                dsimp only
                split
                · split
                  · rfl
                  · exact ih _ log
                · exact ih _ log

theorem recover : Retains own recover := fun _ r => told_skipStatement r.lexemes 0 r.log

theorem inside {p : Parser α} (hp : Retains own p) : Retains own (inside p) :=
  fun env r => hp { env with inBody := true } r

theorem told_skipBlock (ls : List Lexeme) :
    ∀ depth log, own.told (skipBlock depth log ls).2 = own.told ⟨ls, log⟩ := by
  induction ls with
  | nil => intro depth log; rfl
  | cons l ls ih =>
      intro depth log
      cases l with
      | note d => exact (ih depth _).trans (told_note d ls log)
      | illegal c s => exact (ih depth _).trans (told_illegal c s ls log)
      | token t s =>
          by_cases hleft : t = .mark .leftBrace
          · rw [skipBlock.eq_def]
            dsimp only
            rw [if_pos hleft]
            exact ih _ log
          · rw [skipBlock.eq_def]
            dsimp only
            rw [if_neg hleft]
            split
            · cases depth with
              | zero => rfl
              | succ depth => exact ih _ log
            · exact ih _ log

theorem blockEnd : Retains own blockEnd := by
  intro env r
  have h : own.told (skipBlock 0 r.log r.lexemes).2 = own.told r :=
    told_skipBlock r.lexemes 0 r.log
  unfold Parser.blockEnd
  split
  · rename_i s r' hskip
    rw [hskip] at h
    exact h
  · rename_i r' hskip
    rw [hskip] at h
    exact (unexpected _ env r').trans h

theorem hereditary : Hereditary fun _ => Retains own where
  pure := pure
  bind := bind
  halt := halt
  report d hd := report (own.ofProduction d hd)
  peek := peek
  accept? := accept?
  unexpected := unexpected
  budgeted hp env r := hp r.lexemes env r
  attempt := attempt
  inside := inside
  recover := recover
  blockEnd := blockEnd
  trimmedSource _ _ _ := rfl

end Retains

end Parser

theorem File.isOfPlace_place (file : File) (first : Bool) (st : Statement) :
    ∀ d ∈ (file.place first st).2, d.isOfPlace = true := by
  intro d hd
  unfold place at hd
  split at hd
  · split at hd
    · rw [List.mem_singleton.mp hd]
      rfl
    · split at hd
      · cases hd
      · rw [List.mem_singleton.mp hd]
        rfl
  · split at hd
    · rw [List.mem_singleton.mp hd]
      rfl
    · cases hd
  all_goals cases hd

/-- What is wrong with the place of a statement, parsing finds itself. -/
theorem File.isOfParser_place (file : File) (first : Bool) (st : Statement) :
    ∀ d ∈ (file.place first st).2, d.isOfParser = true := by
  intro d hd
  have hplace := file.isOfPlace_place first st d hd
  cases d <;> first | rfl | cases hplace

theorem Parser.Keeps.file : Keeps file := by
  show Retains .ofParser Parser.file
  exact Retains.hereditary.file fun file first st d hd =>
    Retains.report (file.isOfParser_place first st d hd)

/-- Nothing of a source is ahead when parsing ends. -/
theorem lexemes_rest_file (source : List Char) :
    (Parser.file ⟨source, false⟩ ⟨scan source, []⟩).rest.lexemes = [] := by
  have hend : Parser.FileEnd ⟨scan source, []⟩
      (Parser.iterate Parser.nextStatement ⟨.empty, true⟩ ⟨source, false⟩ ⟨scan source, []⟩) :=
    Parser.evolve_nextStatement rfl (scan source) _ _ (Nat.le_refl _)
  unfold Parser.file
  rw [Parser.bind_run]
  generalize Parser.iterate Parser.nextStatement ⟨.empty, true⟩ ⟨source, false⟩ ⟨scan source, []⟩ =
    o at hend
  cases hend with
  | tree surveys ends told => exact ends
  | eof surveys ends => rfl
  | unclosed surveys ends mem => rfl

/--
**What parsing does not find itself is what the scanner noted**, all of it and in its order.
-/
theorem notes_of_parseFile (source : List Char) :
    notesAmong (parseFile source).diagnostics =
      notesAmong ((scan source).filterMap Lexeme.note?) := by
  have hkeeps := Parser.Keeps.file ⟨source, false⟩ ⟨scan source, []⟩
  have hends := lexemes_rest_file source
  have hdiagnostics : (parseFile source).diagnostics =
      (Parser.file ⟨source, false⟩ ⟨scan source, []⟩).rest.log.reverse := by
    unfold parseFile
    cases Parser.file ⟨source, false⟩ ⟨scan source, []⟩ <;> rfl
  unfold Remainder.noted at hkeeps
  rw [hends, ← hdiagnostics] at hkeeps
  simpa [notesAmong] using hkeeps

theorem Diagnostic.not_isOfParser_of_isOfScanner {d : Diagnostic} (h : d.isOfScanner = true) :
    d.isOfParser = false := by
  cases d <;> first | rfl | cases h

/-- What parsing reports of the kinds that the scanner makes is what the scanner noted. -/
theorem scannerNotes_of_parseFile (source : List Char) :
    (parseFile source).diagnostics.filter Diagnostic.isOfScanner =
      (scan source).filterMap Lexeme.note? := by
  have hown (ds : List Diagnostic) :
      (notesAmong ds).filter Diagnostic.isOfScanner = ds.filter Diagnostic.isOfScanner := by
    unfold notesAmong
    rw [List.filter_filter]
    refine List.filter_congr fun d _ => ?_
    cases h : d.isOfScanner with
    | true => rw [Diagnostic.not_isOfParser_of_isOfScanner h]; rfl
    | false => rfl
  rw [← hown, notes_of_parseFile, hown, List.filter_eq_self]
  intro d hd
  obtain ⟨l, hl, hnote⟩ := List.mem_filterMap.mp hd
  cases l with
  | note d' =>
      obtain rfl := Option.some.inj hnote
      exact ofScanner_of_mem_scan hl
  | token t s => cases hnote
  | illegal c s => cases hnote

/-- Nothing that parsing reports is about the meaning of a declaration. -/
theorem category_ne_semantic_of_parseFile {source : List Char} {d : Diagnostic}
    (hd : d ∈ (parseFile source).diagnostics) : d.category ≠ .semantic := by
  cases hself : d.isOfParser with
  | true => exact Diagnostic.category_of_isOfParser hself
  | false =>
      have hmem : d ∈ notesAmong (parseFile source).diagnostics :=
        List.mem_filter.mpr ⟨hd, by rw [hself]; rfl⟩
      rw [notes_of_parseFile] at hmem
      obtain ⟨l, hl, hnote⟩ := List.mem_filterMap.mp (List.mem_filter.mp hmem).1
      cases l with
      | note d' =>
          obtain rfl := Option.some.inj hnote
          rw [category_of_mem_scan hl]
          exact nofun
      | token t s => cases hnote
      | illegal c s => cases hnote

end ProtoSchema
