/-
One dialect and one package.

The loop over statements goes through the parts of a file one after the other.  Productions keep
silent about the places of statements, so all that is reported about them is what the loop finds,
and what it finds depends on three things only: whether a statement was seen, where the dialect was
chosen, and which package was named.  A part that is no statement changes nothing but the first of
these.

So the file and the diagnostics about places are those of a walk over the division (`passAll`).  In
this walk the first part decides about the dialect, whether it is well-formed or not, and the first
package statement about the package.
-/
import ProtoSchema.Proofs.Parsing.Division
import ProtoSchema.Proofs.Parsing.Noted

namespace ProtoSchema

/-! ### A walk over the parts of a file -/

open ProtoSchema.Parser (Draft)

/-- A file with one more part, and what is wrong with the place of that part. -/
def Parser.Draft.pass (draft : Draft) (p : FilePart) : Draft × List Diagnostic :=
  match p.statement? with
  | some st => (⟨(draft.file.place draft.first st).1, false⟩, (draft.file.place draft.first st).2)
  | none => ({ draft with first := false }, [])

/-- What was reported about the places of statements, in order. -/
def placesAmong (ds : List Diagnostic) : List Diagnostic := ds.filter Diagnostic.isOfPlace

namespace Parser

open Remainder Findings

variable {env : Surroundings} {draft draft' : Draft} {ls rest : List Lexeme}
  {log log' : List Diagnostic}

/-- No note that the scanner left ahead is about the place of a statement. -/
def PlacelessAhead (ls : List Lexeme) : Prop := ∀ d, .note d ∈ ls → d.isOfPlace = false

theorem PlacelessAhead.scan (source : List Char) : PlacelessAhead (scan source) := by
  intro d hd
  have hlexical := category_of_mem_scan hd
  cases d <;> first | rfl | cases hlexical

theorem PlacelessAhead.suffix (h : PlacelessAhead ls) (hrest : rest <:+ ls) :
    PlacelessAhead rest := fun d hd => h d (hrest.subset hd)

theorem told_butPlaces (h : PlacelessAhead ls) (log : List Diagnostic) :
    butPlaces.told ⟨ls, log⟩ = placesAmong log.reverse := by
  have hothers (ds : List Diagnostic) : butPlaces.others ds = placesAmong ds := by
    unfold others placesAmong butPlaces
    simp
  have hahead : placesAmong (ls.filterMap Lexeme.note?) = [] := by
    refine List.filter_eq_nil_iff.mpr fun d hd hplace => ?_
    obtain ⟨l, hl, hnote⟩ := List.mem_filterMap.mp hd
    cases l with
    | note d' =>
        obtain rfl := Option.some.inj hnote
        rw [h _ hl] at hplace
        cases hplace
    | _ => cases hnote
  unfold told
  rw [hothers, hothers, hahead, List.append_nil]

theorem suffix_of_nextStatement (hb : env.inBody = false) (draft : Draft) (r : Remainder) :
    (nextStatement draft env r).rest.lexemes <:+ r.lexemes := by
  have hstep := nextStatement_step hb draft r
  generalize nextStatement draft env r = o at hstep
  cases hstep with
  | stop reads =>
      obtain ⟨seg, _, hs, -⟩ := reads
      exact ⟨seg, hs.symm⟩
  | next surveys =>
      obtain ⟨seg, _, hs, -⟩ := surveys
      exact ⟨seg, hs.symm⟩
  | last ends =>
      rw [Outcome.rest, ends]
      exact List.nil_suffix
  | halted whole =>
      cases whole with
      | unclosed => exact List.nil_suffix

/-! ### The loop goes through the parts -/

theorem placesAmong_append_reverse {ds : List Diagnostic} (hds : ∀ d ∈ ds, d.isOfPlace = true)
    (log : List Diagnostic) :
    placesAmong (ds.reverse ++ log).reverse = placesAmong log.reverse ++ ds := by
  unfold placesAmong
  rw [List.reverse_append, List.reverse_reverse, List.filter_append, List.filter_eq_self.mpr hds]

/-- A statement looks at the next token first. -/
theorem statement_settle (env : Surroundings) (r : Remainder) :
    statement env r.settle = statement env r := by
  have hkeyword : keyword? r.settle = keyword? r := by
    unfold keyword? next?
    rw [settle_settle]
  rw [statement, bind_done (peekKeyword_run env r), bind_done (peekKeyword_run env r.settle),
    settle_settle, hkeyword]

/-- What a turn of the loop finds in front of it, and what it makes of the file and of the log. -/
inductive TurnOver (env : Surroundings) (draft : Draft) (ls : List Lexeme)
    (log : List Diagnostic) : Outcome (Option Draft) → Prop
  | stop {r : Remainder} : ahead ls = [] →
      placesAmong r.log.reverse = placesAmong log.reverse →
      TurnOver env draft ls log (.done none r)
  | semicolon {r : Remainder} {s : Span} :
      ahead ls = .token (.mark .semicolon) s :: r.lexemes →
      placesAmong r.log.reverse = placesAmong log.reverse →
      TurnOver env draft ls log (.done (some draft) r)
  | part {r : Remainder} {p : FilePart} : p.At env ls r.lexemes →
      placesAmong r.log.reverse = placesAmong log.reverse ++ (draft.pass p).2 →
      TurnOver env draft ls log (.done (some (draft.pass p).1) r)
  | halted {reason : Halt} {r : Remainder} :
      placesAmong r.log.reverse = placesAmong log.reverse →
      TurnOver env draft ls log (.halted reason r)

/-- Whatever keeps what is told, apart from places, has told nothing about places. -/
theorem placesAmong_of_told (hahead : PlacelessAhead ls) {log : List Diagnostic} {r : Remainder}
    (hr : butPlaces.told r = butPlaces.told ⟨ls, log⟩) (hsuffix : r.lexemes <:+ ls) :
    placesAmong r.log.reverse = placesAmong log.reverse := by
  rw [← told_butPlaces (hahead.suffix hsuffix), ← told_butPlaces hahead, ← hr]

/-- A statement that was read is a part of the file. -/
theorem turnOver_of_done {draft : Draft} {log : List Diagnostic} {st : Statement} {r : Remainder}
    (hrun : statement env ⟨ls, log⟩ = .done st r)
    (hlog : placesAmong r.log.reverse = placesAmong log.reverse) :
    TurnOver env draft ls log (.done (some ⟨(draft.file.place draft.first st).1, false⟩)
      ⟨r.lexemes, (draft.file.place draft.first st).2.reverse ++ r.log⟩) := by
  obtain ⟨p, hat, hst⟩ := at_of_statement (Takes.of_done Oblivious.hereditary.statement hrun)
  have hpass : draft.pass p =
      (⟨(draft.file.place draft.first st).1, false⟩, (draft.file.place draft.first st).2) := by
    unfold Draft.pass
    rw [hst]
  have hpart : TurnOver env draft ls log (.done (some (draft.pass p).1)
      ⟨r.lexemes, (draft.file.place draft.first st).2.reverse ++ r.log⟩) := by
    refine .part hat ?_
    rw [hpass, placesAmong_append_reverse (File.isOfPlace_place _ _ _), hlog]
  rwa [hpass] at hpart

/-- What is skipped where a statement does not match is a part of its own. -/
theorem turnOver_of_mismatch {draft : Draft} {log : List Diagnostic} {r : Remainder} {t : Token}
    {s : Span} {behind : List Lexeme} (hfront : ahead ls = .token t s :: behind)
    (hsemi : t ≠ .mark .semicolon) (hright : t ≠ .mark .rightBrace)
    (hrun : statement env ⟨ls, log⟩ = .halted .mismatch r)
    (hlog : placesAmong (skipStatement 0 r.log r.lexemes).log.reverse =
      placesAmong log.reverse) :
    TurnOver env draft ls log (.done (some ⟨draft.file, false⟩)
      (skipStatement 0 r.log r.lexemes)) := by
  -- Without the log the statement halts at the same place, and recovery skips as much.
  obtain ⟨r₀, hrun₀, rfl⟩ := Oblivious.hereditary.statement.halted hrun
  have honto : skipStatement 0 (r₀.onto log).log (r₀.onto log).lexemes =
      (skipStatement 0 r₀.log r₀.lexemes).onto log :=
    Oblivious.skipStatement_onto r₀.lexemes 0 r₀.log log
  refine .part (p := .malformed) ?_ (hlog.trans (List.append_nil _).symm)
  rw [honto]
  exact .malformed hfront hsemi hright hrun₀

theorem turnOver_nextStatement (hb : env.inBody = false) (hahead : PlacelessAhead ls)
    (draft : Draft) (log : List Diagnostic) :
    TurnOver env draft ls log (nextStatement draft env ⟨ls, log⟩) := by
  have hset : (settle ⟨ls, log⟩).lexemes = ahead ls := lexemes_settle _
  have hsuffix := suffix_of_nextStatement hb draft ⟨ls, log⟩
  have hlog : placesAmong (settle ⟨ls, log⟩).log.reverse = placesAmong log.reverse := by
    refine placesAmong_of_told hahead (told_settle _) ?_
    rw [hset]
    exact List.dropWhile_suffix _
  rcases settle_lexemes ⟨ls, log⟩ with hnext | ⟨t, s, behind, hnext⟩
  · rw [nextStatement_nil hnext]
    exact .stop (hset.symm.trans hnext) hlog
  have hfront := hset.symm.trans hnext
  by_cases hsemi : t = .mark .semicolon
  · subst hsemi
    rw [nextStatement_semicolon hnext]
    exact .semicolon hfront hlog
  by_cases hright : t = .mark .rightBrace
  · subst hright
    rw [nextStatement_rightBrace hnext]
    refine .part (p := .malformed) (.stray hfront) ?_
    rw [← hlog]
    unfold placesAmong
    simp [Draft.pass, FilePart.statement?, Diagnostic.isOfPlace]
  rw [nextStatement_statement hnext hsemi hright, statement_settle] at hsuffix ⊢
  -- A production reports nothing about places; only what is done with its statement may.
  have hkeeps : butPlaces.told (statement env ⟨ls, log⟩).rest = butPlaces.told ⟨ls, log⟩ :=
    Retains.hereditary.statement env ⟨ls, log⟩
  cases hrun : statement env ⟨ls, log⟩ with
  | done st r =>
      rw [hrun] at hsuffix hkeeps
      exact turnOver_of_done hrun (placesAmong_of_told hahead hkeeps hsuffix)
  | halted reason r =>
      rw [hrun] at hsuffix hkeeps
      cases reason with
      | mismatch =>
          have htold := (Retains.told_skipStatement r.lexemes 0 r.log).trans hkeeps
          exact turnOver_of_mismatch hfront hsemi hright hrun
            (placesAmong_of_told hahead htold hsuffix)
      | unclosed => exact .halted (placesAmong_of_told hahead hkeeps hsuffix)
      | exhausted => exact .halted (placesAmong_of_told hahead hkeeps hsuffix)

end Parser

/-! ### What the walk finds -/

namespace Diagnostic

end Diagnostic

namespace Parser.Draft

variable {draft : Draft}

end Parser.Draft

/-! ### One dialect and one package -/

end ProtoSchema
