/-
The parts of a file.

The loop over statements divides a source: at each place stands an empty statement, a well-formed
statement, or something malformed, which is skipped as far as recovery goes.  `Divides` is this
division, by itself and without the file that is being made.  A choice of dialect and a package
statement are in it by their tokens, every other statement is one that parses, and there is only
one division of a source.
-/
import ProtoSchema.Proofs.Parsing.Headings

namespace ProtoSchema

/-! ### Divisions -/

/-- Whether a statement is about the dialect or the package. -/
def Statement.isHeading : Statement → Bool
  | dialect .. | package _ => true
  | _ => false

/-- What stands at one place of a file, besides empty statements. -/
inductive FilePart where
  | dialect (value : List UInt8) (span : Span)
  | package (p : Package)
  | other (st : Statement) (h : st.isHeading = false)
  | malformed

open ProtoSchema.Parser in
/-- A part of a file is in front of some lexemes. -/
inductive FilePart.At (env : Surroundings) : List Lexeme → FilePart → List Lexeme → Prop
  | dialect {ls rest : List Lexeme} {value : List UInt8} {span : Span} :
      DialectForm ls value span rest → At env ls (.dialect value span) rest
  | package {ls rest : List Lexeme} {p : Package} :
      PackageForm ls p rest → At env ls (.package p) rest
  | other {ls rest : List Lexeme} {st : Statement} (h : st.isHeading = false) :
      Takes statement env ls st rest → At env ls (.other st h) rest
  /-- A brace that closes nothing stands alone. -/
  | stray {ls rest : List Lexeme} {s : Span} :
      ahead ls = .token (.mark .rightBrace) s :: rest → At env ls .malformed rest
  /-- What does not parse goes as far as recovery skips from where it got. -/
  | malformed {ls behind : List Lexeme} {t : Token} {s : Span} {r : Remainder} :
      ahead ls = .token t s :: behind → t ≠ .mark .semicolon → t ≠ .mark .rightBrace →
      statement env ⟨ls, []⟩ = .halted .mismatch r →
      At env ls .malformed (skipStatement 0 r.log r.lexemes).lexemes

/-- The division of some lexemes into the parts of a file. -/
inductive Divides (env : Surroundings) : List Lexeme → List FilePart → Prop
  | nil {ls : List Lexeme} : ahead ls = [] → Divides env ls []
  | semicolon {ls rest : List Lexeme} {s : Span} {parts : List FilePart} :
      ahead ls = .token (.mark .semicolon) s :: rest → Divides env rest parts →
      Divides env ls parts
  | part {ls rest : List Lexeme} {p : FilePart} {parts : List FilePart} :
      p.At env ls rest → Divides env rest parts → Divides env ls (p :: parts)

/-- The statement that a part is, if it is a well-formed one. -/
def FilePart.statement? : FilePart → Option Statement
  | dialect value span => some (.dialect (Dialect.ofBytes? value) span)
  | package p => some (.package p)
  | other st _ => some st
  | malformed => none

namespace Parser

open Takes

variable {env : Surroundings} {ls rest : List Lexeme} {st : Statement}

/-- A statement is one about the dialect or the package by its form, or it is about neither. -/
theorem at_of_statement (h : Takes statement env ls st rest) :
    ∃ p : FilePart, p.At env ls rest ∧ p.statement? = some st := by
  by_cases hheading : st.isHeading = false
  · exact ⟨.other st hheading, .other hheading h, rfl⟩
  rw [statement_iff] at h
  unfold statementOf at h
  split at h
  · obtain ⟨value, span, hform, rfl⟩ := dialectStatement_iff.mp h
    exact ⟨.dialect value span, .dialect (dialectForm_ahead.mp hform), rfl⟩
  · obtain ⟨p, hp, rfl⟩ := map_iff.mp h
    exact ⟨.package p, .package (packageForm_ahead.mp (packageStatement_iff.mp hp)), rfl⟩
  -- No other keyword makes a statement of one of these kinds.
  all_goals first
    | exact (not_unexpected h).elim
    | obtain ⟨_, -, rfl⟩ := map_iff.mp h
      exact (hheading rfl).elim

end Parser

/-! ### There is only one division -/

namespace FilePart

open ProtoSchema.Parser

variable {env : Surroundings} {ls rest rest' : List Lexeme} {p p' : FilePart}

theorem At.statement {st : Statement} (h : p.At env ls rest) (hst : p.statement? = some st) :
    Takes Parser.statement env ls st rest := by
  cases h with
  | dialect h =>
      cases hst
      exact statement_of_dialectForm h
  | package h =>
      cases hst
      exact statement_of_packageForm h
  | other _ h =>
      cases hst
      exact h
  | stray => cases hst
  | malformed => cases hst

/-- What is malformed is no statement. -/
theorem At.not_statement {st : Statement} (h : p.At env ls rest) (hp : p.statement? = none) :
    ¬ Takes Parser.statement env ls st rest' := by
  intro hst
  cases h with
  | stray h =>
      obtain ⟨_, _, _, hword⟩ := ahead_of_statement hst
      rw [h] at hword
      cases hword
  | malformed h hsemi hright hrun =>
      obtain ⟨log, hst⟩ := hst
      rw [hrun] at hst
      cases hst
  | _ => cases hp

theorem eq_of_statement? {st : Statement} (h : p.At env ls rest) (h' : p'.At env ls rest)
    (hp : p.statement? = some st) (hp' : p'.statement? = some st) : p' = p := by
  cases h with
  | dialect h =>
      cases hp
      cases h' with
      | dialect h' =>
          obtain ⟨rfl, rfl, -⟩ := h.unique h'
          rfl
      | other hheading _ =>
          cases hp'
          cases hheading
      | _ => cases hp'
  | package _ =>
      cases hp
      cases h' with
      | package _ =>
          cases hp'
          rfl
      | other hheading _ =>
          cases hp'
          cases hheading
      | _ => cases hp'
  | other hheading _ =>
      cases hp
      cases h' with
      | other _ _ =>
          cases hp'
          rfl
      | dialect _ =>
          cases hp'
          cases hheading
      | package _ =>
          cases hp'
          cases hheading
      | _ => cases hp'
  | stray _ => cases hp
  | malformed _ _ _ _ => cases hp

theorem At.unique (h : p.At env ls rest) (h' : p'.At env ls rest') : p' = p ∧ rest' = rest := by
  cases hp : p.statement? with
  | some st =>
      have htakes := h.statement hp
      cases hp' : p'.statement? with
      | none => exact (h'.not_statement hp' htakes).elim
      | some st' =>
          obtain ⟨rfl, rfl⟩ := htakes.unique (h'.statement hp')
          exact ⟨eq_of_statement? h h' hp hp', rfl⟩
  | none =>
      cases hp' : p'.statement? with
      | some st' => exact (h.not_statement hp (h'.statement hp')).elim
      | none =>
          cases h with
          | stray h =>
              cases h' with
              | stray h' =>
                  cases h.symm.trans h'
                  exact ⟨rfl, rfl⟩
              | malformed h' hsemi hright _ =>
                  cases h.symm.trans h'
                  exact (hright rfl).elim
              | _ => cases hp'
          | malformed h hsemi hright hrun =>
              cases h' with
              | stray h' =>
                  cases h.symm.trans h'
                  exact (hright rfl).elim
              | malformed h' _ _ hrun' =>
                  cases hrun.symm.trans hrun'
                  exact ⟨rfl, rfl⟩
              | _ => cases hp'
          | _ => cases hp

/-- A part starts with a token that is no semicolon. -/
theorem At.ahead (h : p.At env ls rest) :
    ∃ t s behind, ahead ls = .token t s :: behind ∧ t ≠ .mark .semicolon := by
  cases hp : p.statement? with
  | some st =>
      obtain ⟨word, s, behind, hword⟩ := ahead_of_statement (h.statement hp)
      exact ⟨_, s, behind, hword, nofun⟩
  | none =>
      cases h with
      | stray h => exact ⟨_, _, _, h, nofun⟩
      | malformed h hsemi _ _ => exact ⟨_, _, _, h, hsemi⟩
      | _ => cases hp

end FilePart

theorem Divides.unique {env : Surroundings} {ls : List Lexeme} {parts parts' : List FilePart}
    (h : Divides env ls parts) (h' : Divides env ls parts') : parts' = parts := by
  induction h generalizing parts' with
  | nil hend =>
      cases h' with
      | nil _ => rfl
      | semicolon hsemi _ => cases hend.symm.trans hsemi
      | part hpart _ =>
          obtain ⟨_, _, _, hahead, -⟩ := hpart.ahead
          cases hend.symm.trans hahead
  | semicolon hsemi _ ih =>
      cases h' with
      | nil hend => cases hend.symm.trans hsemi
      | semicolon hsemi' hrest =>
          cases hsemi.symm.trans hsemi'
          exact ih hrest
      | part hpart _ =>
          obtain ⟨_, _, _, hahead, hne⟩ := hpart.ahead
          cases hsemi.symm.trans hahead
          exact (hne rfl).elim
  | part hpart _ ih =>
      obtain ⟨_, _, _, hahead, hne⟩ := hpart.ahead
      cases h' with
      | nil hend => cases hend.symm.trans hahead
      | semicolon hsemi _ =>
          cases hsemi.symm.trans hahead
          exact (hne rfl).elim
      | part hpart' hrest =>
          obtain ⟨rfl, rfl⟩ := hpart.unique hpart'
          rw [ih hrest]

end ProtoSchema
