/-
Braces in a whole file.

Between the statements of a file nothing is open, so the stack of open braces is empty
there, and what the loop over statements meets of strays are the strays of the source.
It reports each of them and passes it alone.  A brace that stays open is another matter:
it makes some body, block or skipped statement run to the end of the source.  There the
parse ends, either fatally, with the brace as the last thing to report, or with something
reported before.

`Surveys` says this of the part of a source that was read, and `FileEnd` of the outcome of
the whole loop.
-/
import ProtoSchema.Proofs.Parsing.Notes
import ProtoSchema.Proofs.Parsing.Statements

namespace ProtoSchema

/-- Strays in front of the braces that a later part leaves unmatched. -/
def Unmatched.addStrays (ss : List Span) (u : Unmatched) : Unmatched :=
  { u with stray := ss ++ u.stray }

theorem Diagnostic.category_of_isAtEnd {d : Diagnostic} (h : d.isAtEnd = true) :
    d.category = .grammatical := by
  cases d with
  | unexpectedEof e s => rfl
  | unterminatedBody kind s => rfl
  | _ => cases h

namespace Remainder

variable {r r₁ r₂ : Remainder} {ys ss ts : List Span}

/--
What is left of a file after `r` has been read up to `r'`.  That left braces open and
passed strays, each of which was reported; about the end of the source the parser
reported nothing.
-/
def Surveys (r r' : Remainder) (opened strays : List Span) : Prop :=
  ∃ (seg : List Lexeme) (new : List Diagnostic), r.lexemes = seg ++ r'.lexemes ∧
    r'.log = new ++ r.log ∧
    (∀ ls, unmatched [] (seg ++ ls) = (unmatched opened ls).addStrays strays) ∧
    (∀ d ∈ new, d.isAtEnd = true → .note d ∈ seg) ∧
    ∀ s ∈ strays, ∃ e, .unexpectedToken e (.mark .rightBrace) s ∈ new

namespace Surveys

/-- Where no stray is passed. -/
theorem of_reads (h : Reads [] r r₁ ys) : Surveys r r₁ ys [] := by
  obtain ⟨seg, new, hs, hl, hb, hd⟩ := h
  refine ⟨seg, new, hs, hl, fun ls => ?_, hd, by simp⟩
  simpa [Unmatched.addStrays] using hb [] ls

theorem trans (h₁ : Surveys r r₁ [] ss) (h₂ : Surveys r₁ r₂ ys ts) :
    Surveys r r₂ ys (ss ++ ts) := by
  obtain ⟨seg₁, new₁, hs₁, hl₁, hb₁, hd₁, ht₁⟩ := h₁
  obtain ⟨seg₂, new₂, hs₂, hl₂, hb₂, hd₂, ht₂⟩ := h₂
  refine ⟨seg₁ ++ seg₂, new₂ ++ new₁, ?_, ?_, fun ls => ?_, fun d hd hend => ?_, fun s hs => ?_⟩
  · rw [hs₁, hs₂, List.append_assoc]
  · rw [hl₂, hl₁, List.append_assoc]
  · rw [List.append_assoc, hb₁, hb₂]
    simp [Unmatched.addStrays]
  · rcases List.mem_append.mp hd with hd | hd
    · exact List.mem_append_right _ (hd₂ d hd hend)
    · exact List.mem_append_left _ (hd₁ d hd hend)
  · rcases List.mem_append.mp hs with hs | hs
    · obtain ⟨e, he⟩ := ht₁ s hs
      exact ⟨e, List.mem_append_right _ he⟩
    · obtain ⟨e, he⟩ := ht₂ s hs
      exact ⟨e, List.mem_append_left _ he⟩

/-- A stray that is reported and passed. -/
theorem stray (e : Expectation) (s : Span) (ls : List Lexeme) (log : List Diagnostic) :
    Surveys ⟨.token (.mark .rightBrace) s :: ls, log⟩
      ⟨ls, .unexpectedToken e (.mark .rightBrace) s :: log⟩ [] [s] := by
  refine ⟨[.token (.mark .rightBrace) s], [.unexpectedToken e (.mark .rightBrace) s], rfl, rfl,
    fun _ => rfl, ?_, ?_⟩
  · intro d hd hend
    obtain rfl := List.mem_singleton.mp hd
    cases hend
  · intro s' hs'
    obtain rfl := List.mem_singleton.mp hs'
    exact ⟨e, List.mem_singleton_self _⟩

theorem log_length_le (h : Surveys r r₁ ys ss) : r.log.length ≤ r₁.log.length := by
  obtain ⟨seg, new, -, hl, -⟩ := h
  rw [hl, List.length_append]
  omega

/-- At the end of the source all its unmatched braces are known. -/
theorem unmatched_eq (h : Surveys r r₁ ys ss) (hend : r₁.lexemes = []) :
    unmatched [] r.lexemes = ⟨ys, ss⟩ := by
  obtain ⟨seg, new, hs, -, hb, -⟩ := h
  have := hb []
  rw [hend, List.append_nil] at hs
  rw [List.append_nil] at this
  rw [hs, this]
  simp [Unmatched.addStrays]

end Surveys

end Remainder

namespace Parser

open Remainder

variable {α : Type} {env : Surroundings} {r r₁ : Remainder} {draft : Draft}

/-! ### The end of a file -/

/-- What comes of the statements of a file. -/
inductive FileEnd (r : Remainder) : Outcome α → Prop
  /-- The source ends behind a statement, or behind a part that was skipped. -/
  | tree {a : α} {r' : Remainder} {opened strays : List Span}
      (surveys : Surveys r r' opened strays) (ends : r'.lexemes = [])
      (told : opened ≠ [] → r.log.length < r'.log.length) : FileEnd r (.done a r')
  /-- The source ends within a statement. -/
  | eof {a : α} {mid : Remainder} {opened strays : List Span} {e : Expectation} {s : Span}
      (surveys : Surveys r mid opened strays) (ends : mid.lexemes = []) :
      FileEnd r (.done a ⟨[], .unexpectedEof e s :: mid.log⟩)
  /-- The source ends within a body. -/
  | unclosed {mid : Remainder} {opened strays : List Span} {kind : BodyKind} {s : Span}
      (surveys : Surveys r mid opened strays) (ends : mid.lexemes = []) (mem : s ∈ opened) :
      FileEnd r (.halted .unclosed ⟨[], .unterminatedBody kind s :: mid.log⟩)

theorem FileEnd.prepend {o : Outcome α} {ss : List Span} (hr : Surveys r r₁ [] ss)
    (ho : FileEnd r₁ o) : FileEnd r o := by
  have hle := hr.log_length_le
  cases ho with
  | tree surveys ends told =>
      refine .tree (hr.trans surveys) ends fun hne => ?_
      have hlt := told hne
      omega
  | eof surveys ends => exact .eof (hr.trans surveys) ends
  | unclosed surveys ends mem => exact .unclosed (hr.trans surveys) ends mem

/-! ### One statement after the other -/

/-- What comes of one turn of the loop over statements. -/
inductive FileStep (r : Remainder) : Outcome (Option Draft) → Prop
  | stop {r' : Remainder} (reads : Reads [] r r' []) (ends : r'.lexemes = []) :
      FileStep r (.done none r')
  | next {d : Draft} {r' : Remainder} {strays : List Span} (surveys : Surveys r r' [] strays)
      (shorter : r'.lexemes.length < r.lexemes.length) : FileStep r (.done (some d) r')
  /-- The source ends within the statement, so the turn is the last that reads. -/
  | last {d : Draft} {r' : Remainder} (ends : r'.lexemes = [])
      (whole : ∀ d : Draft, FileEnd r (.done d r'))
      (shorter : r'.lexemes.length < r.lexemes.length) : FileStep r (.done (some d) r')
  | halted {reason : Halt} {r' : Remainder} (whole : FileEnd (α := Draft) r (.halted reason r')) :
      FileStep r (.halted reason r')

/-- A statement that did not parse is skipped, or runs to the end of the source. -/
theorem FileStep.skip {mid : Remainder} {e : Expectation} {t t' : Token} {s s' : Span}
    {ls : List Lexeme} (hr : t ≠ .mark .rightBrace) (h : r.settle.lexemes = .token t s :: ls)
    (reads : Reads [] r.settle mid []) (d : Draft) :
    FileStep r
      (.done (some d) (skipStatement 0 (.unexpectedToken e t' s' :: mid.log) mid.lexemes)) := by
  obtain ⟨ys, hskip, hys⟩ := reads_skipStatement mid.lexemes 0
    (.unexpectedToken e t' s' :: mid.log) [] rfl
  have hfound : (Diagnostic.unexpectedToken e t' s').isAtEnd = false := rfl
  have hset := reads_settle [] r
  have hbefore := hset.trans reads
  have hafter := (Reads.report hfound [] mid.lexemes mid.log).trans hskip
  have hlt := length_lt_of_settle h
  have hshort : (skipStatement 0 (.unexpectedToken e t' s' :: mid.log) mid.lexemes).lexemes.length
      < r.lexemes.length := by
    by_cases hsame : r.settle.lexemes.length ≤ mid.lexemes.length
    · -- Nothing was taken, so the token at hand is no closing brace and is skipped.
      rw [reads.eq_of_length_le hsame, h]
      exact Nat.lt_of_lt_of_le
        (length_skipStatement_lt hr s (.unexpectedToken e t' s' :: mid.log) ls) hlt
    · have hle := hset.length_le
      exact Nat.lt_of_le_of_lt hskip.length_le (by simp only; omega)
  rcases hys with rfl | hend
  · exact .next (.of_reads (hbefore.trans hafter)) hshort
  · refine .last hend (fun d => .tree (.of_reads (hbefore.trans hafter)) hend fun _ => ?_) hshort
    have hold := (Surveys.of_reads hbefore).log_length_le
    have hnew := (Surveys.of_reads hskip).log_length_le
    rw [List.length_cons] at hnew
    omega

theorem nextStatement_step (hb : env.inBody = false) (draft : Draft) (r : Remainder) :
    FileStep r (nextStatement draft env r) := by
  have hset := reads_settle [] r
  rcases settle_lexemes r with h | ⟨t, s, ls, h⟩
  · rw [nextStatement_nil h]
    exact .stop hset h
  have hlt := length_lt_of_settle h
  have he : r.settle = ⟨.token t s :: ls, r.settle.log⟩ := by rw [← h]
  by_cases hs : t = .mark .semicolon
  · subst hs
    rw [nextStatement_semicolon h]
    have hstep : Reads [] r.settle ⟨ls, r.settle.log⟩ [] := by
      rw [he]
      exact .lexeme _ (.plain rfl [])
    exact .next (.of_reads (hset.trans hstep)) hlt
  by_cases hr : t = .mark .rightBrace
  · subst hr
    rw [nextStatement_rightBrace h]
    have hstep : Surveys r.settle
        ⟨ls, .unexpectedToken .statement (.mark .rightBrace) s :: r.settle.log⟩ [] [s] := by
      rw [he]
      exact .stray .statement s ls _
    exact .next ((Surveys.of_reads hset).trans hstep) hlt
  rw [nextStatement_statement h hs hr]
  have ho := Orderly.statement (n := r.settle.lexemes.length) env r.settle
  cases hrun : statement env r.settle with
  | done st r' =>
      rw [hrun] at ho
      cases ho with
      | done reads shorter =>
          have hle := hset.length_le
          -- What is wrong with the place of a statement says nothing about the end of the source.
          have hplaced : Reads [] r' ⟨r'.lexemes,
              (draft.file.place draft.first st).2.reverse ++ r'.log⟩ [] := by
            refine ⟨[], _, rfl, rfl, .nil [], fun d hd hend => ?_⟩
            have hcat := draft.file.category_place draft.first st d (List.mem_reverse.mp hd)
            rw [Diagnostic.category_of_isAtEnd hend] at hcat
            cases hcat
          exact .next (.of_reads ((hset.trans reads).trans hplaced))
            (Nat.lt_of_lt_of_le (shorter rfl) hle)
  | halted reason r' =>
      rw [hrun] at ho
      cases ho with
      | unexpected reads token => exact .skip hr h reads _
      | silent inBody reads ends =>
          rw [hb] at inBody
          cases inBody
      | @eof opened mid e s' inBody reads ends =>
          refine .last rfl (fun d => .eof (.of_reads (hset.trans reads)) ends) ?_
          exact Nat.lt_of_le_of_lt (Nat.zero_le _) hlt
      | unclosed reads ends mem =>
          exact .halted (.unclosed (.of_reads (hset.trans reads)) ends mem)
      | exhausted budget => exact absurd budget (Nat.lt_irrefl _)

theorem evolve_nextStatement (hb : env.inBody = false) (budget : List Lexeme) :
    ∀ (draft : Draft) (r : Remainder), r.lexemes.length ≤ budget.length →
      FileEnd r (evolve nextStatement budget draft env r) := by
  induction budget with
  | nil =>
      intro draft r hlen
      have hnil : r.lexemes = [] := List.length_eq_zero_iff.mp (Nat.le_zero.mp hlen)
      rw [evolve_nextStatement_nil hnil]
      exact .tree (.of_reads (.refl [] r)) hnil (by simp)
  | cons l budget ih =>
      intro draft r hlen
      rw [List.length_cons] at hlen
      have hstep := nextStatement_step hb draft r
      rw [evolve, bind_run]
      cases hrun : nextStatement draft env r with
      | halted reason r' =>
          rw [hrun] at hstep
          cases hstep with
          | halted whole => exact whole
      | done d? r' =>
          rw [hrun] at hstep
          cases hstep with
          | stop reads ends => exact .tree (.of_reads reads) ends (by simp)
          | next surveys shorter => exact (ih _ r' (by omega)).prepend surveys
          | last ends whole shorter =>
              simp only [evolve_nextStatement_nil ends]
              exact whole _

end Parser

/-! ### The discipline -/

/-- What there is to report about a source, with a tree or without. -/
def ParseResult.diagnostics : ParseResult → List Diagnostic
  | .tree _ ds | .unclosed ds => ds

/-- Whether a diagnostic is about a statement that the source does not finish. -/
def Diagnostic.isUnexpectedEof : Diagnostic → Bool
  | unexpectedEof .. => true
  | _ => false

/-- What the parse of a whole source comes to. -/
inductive FileParse (source : List Char) (u : Unmatched) : ParseResult → Prop
  | tree {file : File} {ds : List Diagnostic} (plain : ∀ d ∈ ds, d.isAtEnd = false)
      (told : u.opened ≠ [] → ds ≠ [])
      (strays : ∀ s ∈ u.stray, ∃ e, .unexpectedToken e (.mark .rightBrace) s ∈ ds) :
      FileParse source u (.tree file ds)
  | eof {file : File} {ds : List Diagnostic} {e : Expectation} {s : Span}
      (plain : ∀ d ∈ ds, d.isAtEnd = false)
      (strays : ∀ s ∈ u.stray, ∃ e, .unexpectedToken e (.mark .rightBrace) s ∈ ds) :
      FileParse source u (.tree file (ds ++ [.unexpectedEof e s]))
  | unclosed {ds : List Diagnostic} {kind : BodyKind} {s : Span}
      (plain : ∀ d ∈ ds, d.isAtEnd = false) (mem : s ∈ u.opened)
      (strays : ∀ s ∈ u.stray, ∃ e, .unexpectedToken e (.mark .rightBrace) s ∈ ds) :
      FileParse source u (.unclosed (ds ++ [.unterminatedBody kind s]))

/-- At the end of a survey of a whole source, what was reported is about no end of it. -/
theorem Remainder.Surveys.whole {source : List Char} {r : Remainder} {opened strays : List Span}
    (h : Surveys ⟨scan source, []⟩ r opened strays) (hend : r.lexemes = []) :
    unmatched [] (scan source) = ⟨opened, strays⟩ ∧
      (∀ d ∈ r.log.reverse, d.isAtEnd = false) ∧
      ∀ s ∈ strays, ∃ e, .unexpectedToken e (.mark .rightBrace) s ∈ r.log.reverse := by
  have hu := h.unmatched_eq hend
  obtain ⟨seg, new, hs, hl, -, hd, ht⟩ := h
  rw [List.append_nil] at hl
  simp only [hend, List.append_nil] at hs
  refine ⟨hu, fun d hmem => ?_, fun s hs => ?_⟩
  · rw [hl, List.mem_reverse] at hmem
    cases hend : d.isAtEnd with
    | false => rfl
    | true =>
        have hcat := category_of_mem_scan (hs ▸ hd d hmem hend)
        rw [Diagnostic.category_of_isAtEnd hend] at hcat
        cases hcat
  · obtain ⟨e, he⟩ := ht s hs
    exact ⟨e, by rw [hl, List.mem_reverse]; exact he⟩

open ProtoSchema.Parser in
theorem parseFile_fileParse (source : List Char) :
    FileParse source (unmatched [] (scan source)) (parseFile source) := by
  have hend : FileEnd ⟨scan source, []⟩
      (iterate nextStatement ⟨.empty, true⟩ ⟨source, false⟩ ⟨scan source, []⟩) :=
    evolve_nextStatement rfl (scan source) _ _ (Nat.le_refl _)
  unfold parseFile Parser.file
  rw [bind_run]
  generalize iterate nextStatement ⟨.empty, true⟩ ⟨source, false⟩ ⟨scan source, []⟩ = o at hend ⊢
  cases hend with
  | tree surveys ends told =>
      obtain ⟨hu, hplain, hstray⟩ := surveys.whole ends
      rw [hu]
      refine .tree hplain (fun hne => ?_) hstray
      have hlt := told hne
      rw [List.length_nil] at hlt
      rw [Ne, List.reverse_eq_nil_iff]
      exact List.length_pos_iff.mp hlt
  | eof surveys ends =>
      obtain ⟨hu, hplain, hstray⟩ := surveys.whole ends
      rw [hu]
      show FileParse source _ (.tree _ (List.reverse (_ :: _)))
      rw [List.reverse_cons]
      exact .eof hplain hstray
  | unclosed surveys ends mem =>
      obtain ⟨hu, hplain, hstray⟩ := surveys.whole ends
      rw [hu]
      show FileParse source _ (.unclosed (List.reverse (_ :: _)))
      rw [List.reverse_cons]
      exact .unclosed hplain mem hstray

/--
**Brace discipline.**  If every brace that is opened is closed, there is a tree.  A parse
without a tree ends with the one report of a body that is not closed, at a brace that
stays open.  If some brace stays open, something is reported.  Every stray is reported at its
place.  And with a tree, at most one statement is cut short by the end of the source.
-/
theorem brace_discipline (source : List Char) :
    ((unmatched [] (scan source)).opened = [] → ∃ file ds, parseFile source = .tree file ds) ∧
    (∀ ds, parseFile source = .unclosed ds →
      ∃ earlier kind s, ds = earlier ++ [.unterminatedBody kind s] ∧
        s ∈ (unmatched [] (scan source)).opened ∧ ∀ d ∈ earlier, d.isAtEnd = false) ∧
    ((unmatched [] (scan source)).opened ≠ [] →
      (∃ ds, parseFile source = .unclosed ds) ∨ (parseFile source).diagnostics ≠ []) ∧
    (∀ s ∈ (unmatched [] (scan source)).stray,
      ∃ e, .unexpectedToken e (.mark .rightBrace) s ∈ (parseFile source).diagnostics) ∧
    (∀ file ds, parseFile source = .tree file ds →
      (ds.filter Diagnostic.isUnexpectedEof).length ≤ 1) := by
  have hparse := parseFile_fileParse source
  -- From here on only the three outcomes of a parse and the braces left over matter.
  generalize unmatched [] (scan source) = u at hparse ⊢
  have hnone (ds : List Diagnostic) (hds : ∀ d ∈ ds, d.isAtEnd = false) :
      ds.filter Diagnostic.isUnexpectedEof = [] := by
    refine List.filter_eq_nil_iff.mpr fun d hd heof => ?_
    have hend := hds d hd
    cases d <;> cases heof
    cases hend
  cases hp : parseFile source with
  | tree file ds =>
      rw [hp] at hparse
      refine ⟨fun _ => ⟨file, ds, rfl⟩, nofun, fun hne => Or.inr ?_, ?_, ?_⟩
      · cases hparse with
        | tree plain told strays => exact told hne
        | eof plain strays => simp [ParseResult.diagnostics]
      · intro s hs
        cases hparse with
        | tree plain told strays => exact strays s hs
        | eof plain strays =>
            obtain ⟨e, he⟩ := strays s hs
            exact ⟨e, List.mem_append_left _ he⟩
      · rintro file' ds' heq
        cases heq
        cases hparse with
        | tree plain told strays => simp [hnone ds plain]
        | eof plain strays =>
            rw [List.filter_append, hnone _ plain]
            exact Nat.le_refl 1
  | unclosed ds =>
      rw [hp] at hparse
      cases hparse with
      | @unclosed earlier kind s plain mem strays =>
          refine ⟨fun hu => ?_, ?_, fun _ => Or.inl ⟨_, rfl⟩, fun s' hs' => ?_, nofun⟩
          · rw [hu] at mem
            cases mem
          · rintro ds' heq
            cases heq
            exact ⟨earlier, kind, s, rfl, mem, plain⟩
          · obtain ⟨e, he⟩ := strays s' hs'
            exact ⟨e, List.mem_append_left _ he⟩

end ProtoSchema
