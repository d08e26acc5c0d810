/-
Names derived from the names of fields.

The name of a field in JSON and a name in the style of types are made by one recursion, which
differs only in the flag it starts with.  The flag matters for one character: the first one that is
no underscore.  With the flag it is capitalised and without it it stands as it is, and from there on
both go the same way (`joinWords_true`).  So whatever is known of one spelling is known of the
other, and what holds of a name without underscores carries over to the derived names, which are
such names themselves.

All this is about characters of any kind.  Capitalising changes the small letters of ASCII only, so
it never makes an underscore or a dot.
-/
import ProtoSchema.Name.Case

namespace ProtoSchema

/-! ### Characters -/

/-- Capitalising changes small letters only, and makes them capital letters. -/
theorem toUpper_cases (c : Char) :
    c.toUpper = c ∨ c.isLower = true ∧ c.toUpper.isUpper = true := by
  unfold Char.toUpper
  split
  · rename_i hlower
    refine .inr ?_
    unfold Char.isLower Char.isUpper
    simp only [decide_eq_true_eq]
    grind
  · exact .inl rfl

theorem eq_of_toUpper_eq {c d : Char} (hd : d.isUpper = false) (h : c.toUpper = d) : c = d := by
  rcases toUpper_cases c with hc | ⟨-, hupper⟩
  · rw [← hc, h]
  · rw [h, hd] at hupper
    cases hupper

theorem toUpper_of_toUpper (c : Char) : c.toUpper.toUpper = c.toUpper := by
  rcases toUpper_cases c with h | ⟨-, hupper⟩
  · rw [h, h]
  · rcases toUpper_cases c.toUpper with h | ⟨hlower, -⟩
    · exact h
    · unfold Char.isLower at hlower
      unfold Char.isUpper at hupper
      simp only [decide_eq_true_eq] at hlower hupper
      grind

/-- A derived name has the characters of the name, some of them capitalised. -/
theorem exists_of_mem_joinWords {d : Char} {cs : List Char} :
    ∀ {capital : Bool}, d ∈ joinWords capital cs → ∃ c ∈ cs, c ≠ '_' ∧ (c = d ∨ c.toUpper = d) := by
  induction cs with
  | nil => exact fun h => absurd h List.not_mem_nil
  | cons c cs ih =>
      intro capital h
      have hrest {flag : Bool} (h : d ∈ joinWords flag cs) :
          ∃ e ∈ c :: cs, e ≠ '_' ∧ (e = d ∨ e.toUpper = d) := by
        obtain ⟨e, he, hd⟩ := ih h
        exact ⟨e, .tail _ he, hd⟩
      rw [joinWords] at h
      split at h
      · exact hrest h
      · rename_i hc
        rcases List.mem_cons.mp h with rfl | h
        · refine ⟨c, .head _, hc, ?_⟩
          cases capital with
          | true => exact .inr rfl
          | false => exact .inl rfl
        · exact hrest h

theorem underscore_not_mem_joinWords (capital : Bool) (cs : List Char) :
    '_' ∉ joinWords capital cs := by
  intro h
  obtain ⟨c, -, hc, rfl | hupper⟩ := exists_of_mem_joinWords h
  · exact hc rfl
  · exact hc (eq_of_toUpper_eq (by decide) hupper)

theorem length_joinWords (capital : Bool) (cs : List Char) :
    (joinWords capital cs).length = cs.countP (· ≠ '_') := by
  induction cs generalizing capital with
  | nil => rfl
  | cons c cs ih =>
      rw [joinWords]
      by_cases hc : c = '_'
      · rw [if_pos hc, ih, List.countP_cons_of_neg (by simp [hc])]
      · rw [if_neg hc, List.length_cons, ih, List.countP_cons_of_pos (by simp [hc])]

/-! ### The flag -/

/-- Without underscores there is one word, which stands as it is. -/
theorem joinWords_false_of_not_mem {cs : List Char} (h : '_' ∉ cs) : joinWords false cs = cs := by
  induction cs with
  | nil => rfl
  | cons c cs ih =>
      rw [List.mem_cons, not_or] at h
      rw [joinWords, if_neg (Ne.symm h.1), ih h.2]
      rfl

/-- What starts with the flag starts with a character that is capitalised already. -/
theorem modifyHead_joinWords_true (cs : List Char) :
    (joinWords true cs).modifyHead Char.toUpper = joinWords true cs := by
  induction cs with
  | nil => rfl
  | cons c cs ih =>
      rw [joinWords]
      split
      · exact ih
      · rw [if_pos rfl, List.modifyHead_cons, toUpper_of_toUpper]

/-- The flag decides about the first character of the derived name, and about nothing else. -/
theorem joinWords_true (cs : List Char) :
    joinWords true cs = (joinWords false cs).modifyHead Char.toUpper := by
  cases cs with
  | nil => rfl
  | cons c cs =>
      rw [joinWords, joinWords]
      split
      · exact (modifyHead_joinWords_true cs).symm
      · rfl

theorem joinWords_joinWords (capital : Bool) (cs : List Char) :
    joinWords capital (joinWords capital cs) = joinWords capital cs := by
  have hplain := joinWords_false_of_not_mem (underscore_not_mem_joinWords capital cs)
  cases capital with
  | false => exact hplain
  | true => rw [joinWords_true (joinWords true cs), hplain, modifyHead_joinWords_true]

/-! ### Names -/

theorem toList_jsonName (name : String) : (jsonName name).toList = joinWords false name.toList :=
  String.toList_ofList

theorem toList_pascalCase (name : String) : (pascalCase name).toList = joinWords true name.toList :=
  String.toList_ofList

/-- The message that holds the entries of a field has a name of its own. -/
theorem mapEntryName_ne (name : String) : mapEntryName name ≠ name := by
  intro h
  have hchars : joinWords true name.toList ++ "Entry".toList = name.toList := by
    rw [← toList_pascalCase, ← String.toList_append]
    exact congrArg String.toList h
  -- A name that equals it has no underscores, so none of its characters is dropped.
  have hplain : '_' ∉ name.toList := by
    rw [← hchars, List.mem_append, not_or]
    exact ⟨underscore_not_mem_joinWords true _, by decide⟩
  have hlength := congrArg List.length hchars
  have hsame : (joinWords true name.toList).length = name.toList.length := by
    rw [joinWords_true, List.length_modifyHead, joinWords_false_of_not_mem hplain]
  have hentry : "Entry".toList.length = 5 := by decide
  rw [List.length_append] at hlength
  omega

/-- A way to derive names drops exactly the underscores, and has nothing to do a second time. -/
structure DropsUnderscores (derive : String → String) (name : String) : Prop where
  plain : '_' ∉ (derive name).toList
  length : (derive name).length = name.toList.countP (· ≠ '_')
  idempotent : derive (derive name) = derive name

/-- Both ways to derive a name go over it with a flag. -/
theorem dropsUnderscores_of_toList {derive : String → String} {capital : Bool}
    (h : ∀ name, (derive name).toList = joinWords capital name.toList) (name : String) :
    DropsUnderscores derive name where
  plain := by
    rw [h]
    exact underscore_not_mem_joinWords capital _
  length := by rw [← String.length_toList, h, length_joinWords]
  idempotent := by
    refine String.toList_injective ?_
    rw [h, h, joinWords_joinWords]

/--
**Laws of derived names.**  The name of a field in JSON and its name in the style of types have no
underscore, and one character for each character of the name that is none; deriving them again
changes nothing.  The first is the name itself exactly if that has no underscore.  The second is the
first with its first character capitalised, if it has one.  And no field has the name that the
message of its entries would have.
-/
theorem derived_names (name : String) :
    DropsUnderscores jsonName name ∧ DropsUnderscores pascalCase name ∧
    (jsonName name = name ↔ '_' ∉ name.toList) ∧
    (pascalCase name).toList = (jsonName name).toList.modifyHead Char.toUpper ∧
    mapEntryName name ≠ name := by
  refine ⟨dropsUnderscores_of_toList toList_jsonName name,
    dropsUnderscores_of_toList toList_pascalCase name, ⟨fun h => ?_, fun h => ?_⟩, ?_,
    mapEntryName_ne name⟩
  · rw [← h, toList_jsonName]
    exact underscore_not_mem_joinWords false _
  · refine String.toList_injective ?_
    rw [toList_jsonName, joinWords_false_of_not_mem h]
  · rw [toList_pascalCase, toList_jsonName, joinWords_true]

end ProtoSchema
