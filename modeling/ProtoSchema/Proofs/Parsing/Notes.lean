/-
What the scanner notes.

The scanner reports on the text of tokens and comments only, and nothing else does: six kinds
of diagnostics are its own.  They are lexical, so a diagnostic of another category in the log of
a parser was put there by the parser.
-/
import ProtoSchema.Token.Scan

namespace ProtoSchema

/-- Whether a diagnostic is one that the scanner makes. -/
def Diagnostic.isOfScanner : Diagnostic → Bool
  | integerOutOfRange _ | invalidStringCharacters _ | unterminatedString _ | invalidStringEscape _
  | unterminatedBlockComment _ | noSpaceBetweenIntAndIdent _ => true
  | _ => false

theorem Diagnostic.category_of_isOfScanner {d : Diagnostic} (h : d.isOfScanner = true) :
    d.category = .lexical := by
  cases d <;> first | rfl | cases h

theorem QuotedFault.ofScanner_diagnostic (f : QuotedFault) : f.diagnostic.isOfScanner = true := by
  unfold diagnostic
  split <;> rfl

theorem Quoted.ofScanner_diagnostics (q : Quoted) (start : Nat) :
    ∀ d ∈ q.diagnostics start, d.isOfScanner = true := by
  intro d hd
  rcases List.mem_append.mp hd with hd | hd
  · obtain ⟨f, -, rfl⟩ := List.mem_map.mp hd
    exact f.ofScanner_diagnostic
  · split at hd
    · obtain rfl := List.mem_singleton.mp hd
      rfl
    · cases hd

namespace Item

theorem ofScanner_integerNotes (offset width : Nat) (rest : List Char) (value? : Option UInt64) :
    ∀ d ∈ integerNotes offset width rest value?, d.isOfScanner = true := by
  intro d hd
  rcases List.mem_append.mp hd with hd | hd
  · split at hd
    · split at hd
      · obtain rfl := List.mem_singleton.mp hd
        rfl
      · cases hd
    · cases hd
  · split at hd
    · obtain rfl := List.mem_singleton.mp hd
      rfl
    · cases hd

theorem ofScanner_readNumeral (offset : Nat) (cs : List Char) :
    ∀ d ∈ (readNumeral offset cs).notes, d.isOfScanner = true := by
  rw [readNumeral]
  obtain ⟨numeral, width⟩ := Numeral.read cs
  cases numeral with
  | float value => simp
  | zero => simp
  | integer radix ds => exact ofScanner_integerNotes _ _ _ _

theorem ofScanner_readSlash (offset : Nat) (cs : List Char) :
    ∀ d ∈ (readSlash offset cs).notes, d.isOfScanner = true := by
  unfold readSlash
  split
  · simp
  · split
    · simp
    · intro d hd
      obtain rfl := List.mem_singleton.mp hd
      rfl
  · simp

theorem ofScanner_notes (offset : Nat) (c : Char) (cs : List Char) :
    ∀ d ∈ (read offset c cs).notes, d.isOfScanner = true := by
  unfold read
  split
  · simp
  split
  · simp
  split
  · exact ofScanner_readNumeral offset _
  split
  · exact Quoted.ofScanner_diagnostics _ _
  split
  · exact ofScanner_readSlash offset cs
  split <;> simp

theorem note_mem_lexemes {item : Item} {offset : Nat} {c : Char} {cs : List Char}
    {d : Diagnostic} (h : .note d ∈ item.lexemes offset c cs) : d ∈ item.notes := by
  rcases List.mem_append.mp h with h | h
  · obtain ⟨d', hd', heq⟩ := List.mem_map.mp h
    cases heq
    exact hd'
  · split at h <;> simp at h

end Item

theorem ofScanner_of_mem_scanFrom (cs : List Char) :
    ∀ (skip offset : Nat) (d : Diagnostic), .note d ∈ scanFrom skip offset cs →
      d.isOfScanner = true := by
  induction cs with
  | nil =>
      intro skip offset d hd
      simp [scanFrom] at hd
  | cons c cs ih =>
      intro skip offset d hd
      cases skip with
      | succ skip => exact ih skip _ d hd
      | zero =>
          rcases List.mem_append.mp hd with hd | hd
          · exact Item.ofScanner_notes offset c cs d (Item.note_mem_lexemes hd)
          · exact ih _ _ d hd

/-- Every note among the lexemes is one of the scanner's own. -/
theorem ofScanner_of_mem_scan {source : List Char} {d : Diagnostic} (h : .note d ∈ scan source) :
    d.isOfScanner = true := by
  unfold scan at h
  split at h
  · exact ofScanner_of_mem_scanFrom _ _ _ _ h
  · exact ofScanner_of_mem_scanFrom _ _ _ _ h

/-- Every note of the scanner is lexical. -/
theorem category_of_mem_scan {source : List Char} {d : Diagnostic} (h : .note d ∈ scan source) :
    d.category = .lexical :=
  Diagnostic.category_of_isOfScanner (ofScanner_of_mem_scan h)

end ProtoSchema
