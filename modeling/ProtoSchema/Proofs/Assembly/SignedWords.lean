/-
Literals as signed words.

A literal is a sign and a magnitude of 64 bits, which is more than any one signed word of 64
bits can hold and less than one of 128 bits can.  So its number is taken in two ways.  Numbers of
fields and of enum values, and negative values of unknown options, go through a word of 64 bits,
with the least of these words set apart, because the magnitude of that one is not itself a word
with a sign.  Values of known types go through a word of 128 bits and are compared with the
bounds of the type there.

Either way the number is the one that the literal denotes, or there is none because the word is
too small for it: a magnitude is read as a signed word only where the two agree, and a word is
negated only where that does not overflow.  Minus zero is zero.  What every check makes of a
literal is therefore a function of `IntLiteral.value` and of its own bounds alone, which is
`IntLiteral.verdict`.
-/
import ProtoSchema.Assembly.Default
import ProtoSchema.Assembly.Number

namespace ProtoSchema

/-! ### Integers that are words -/

theorem exists_int64_iff {v : Int} :
    (∃ w : Int64, w.toInt = v) ↔ -9223372036854775808 ≤ v ∧ v ≤ 9223372036854775807 := by
  constructor
  · rintro ⟨w, rfl⟩
    have hle := w.le_toInt
    have hlt := w.toInt_lt
    omega
  · rintro ⟨hle, hge⟩
    exact ⟨.ofInt v, Int64.toInt_ofInt_of_le hle (Int.lt_of_le_of_lt hge (by decide))⟩

theorem exists_int32_iff {v : Int} :
    (∃ w : Int32, w.toInt = v) ↔ -2147483648 ≤ v ∧ v ≤ 2147483647 := by
  constructor
  · rintro ⟨w, rfl⟩
    have hle := w.le_toInt
    have hlt := w.toInt_lt
    omega
  · rintro ⟨hle, hge⟩
    exact ⟨.ofInt v, Int32.toInt_ofInt_of_le hle (Int.lt_of_le_of_lt hge (by decide))⟩

namespace IntLiteral

variable {n : IntLiteral}

/-! ### Words of 64 bits -/

theorem le_greatest_iff {m : UInt64} :
    m ≤ 9223372036854775807 ↔ m.toNat ≤ 9223372036854775807 := UInt64.le_iff_toNat_le

/-- A magnitude that is small enough keeps its value when it is read with a sign. -/
theorem toInt_toInt64 {m : UInt64} (h : m ≤ 9223372036854775807) :
    m.toInt64.toInt = m.toNat := by
  rw [le_greatest_iff] at h
  exact BitVec.toInt_eq_toNat_of_lt (by rw [UInt64.toBitVec_toInt64, UInt64.toNat_toBitVec]; omega)

/-- The one word whose negative is no word is not among them. -/
theorem negOverflow_toInt64 {m : UInt64} (h : m ≤ 9223372036854775807) :
    m.toInt64.toBitVec.negOverflow = false := by
  unfold BitVec.negOverflow
  rw [Int64.toInt_toBitVec, toInt_toInt64 h, beq_eq_false_iff_ne]
  omega

theorem toInt_neg_toInt64 {m : UInt64} (h : m ≤ 9223372036854775807) :
    (-m.toInt64).toInt = -(m.toNat : Int) := by
  have hneg := BitVec.toInt_neg_of_not_negOverflow (Bool.not_eq_true _ ▸ negOverflow_toInt64 h)
  rw [← toInt_toInt64 h]
  exact hneg

theorem value_of_negative (h : n.negative = true) : n.value = -(n.magnitude.toNat : Int) :=
  if_pos h

theorem value_of_not_negative (h : n.negative = false) : n.value = n.magnitude.toNat :=
  if_neg (by rw [h]; exact Bool.false_ne_true)

/-- A word that is found is the number of the literal. -/
theorem toInt_of_toInt64? {w : Int64} (h : n.toInt64? = some w) : w.toInt = n.value := by
  unfold toInt64? at h
  split at h
  · rename_i hneg
    rw [value_of_negative hneg]
    split at h
    · rename_i hm
      cases h
      exact toInt_neg_toInt64 hm
    · split at h
      · rename_i hleast
        cases h
        rw [hleast]
        rfl
      · cases h
  · rename_i hneg
    rw [value_of_not_negative (Bool.not_eq_true _ ▸ hneg)]
    split at h
    · rename_i hm
      cases h
      exact toInt_toInt64 hm
    · cases h

/-- A word is found for every number that is one. -/
theorem isSome_toInt64? (hle : -9223372036854775808 ≤ n.value)
    (hge : n.value ≤ 9223372036854775807) : n.toInt64?.isSome = true := by
  unfold toInt64?
  split
  · rename_i hneg
    rw [value_of_negative hneg] at hle
    split
    · rfl
    · rename_i hm
      have hleast : n.magnitude = 9223372036854775808 := by
        rw [le_greatest_iff] at hm
        refine UInt64.toNat_inj.mp (Nat.le_antisymm ?_ ?_)
        · exact Int.ofNat_le.mp (Int.le_of_neg_le_neg hle)
        · exact Nat.lt_of_not_le hm
      rw [if_pos hleast]
      rfl
  · rename_i hneg
    rw [value_of_not_negative (Bool.not_eq_true _ ▸ hneg)] at hge
    rw [if_pos (le_greatest_iff.mpr (Int.ofNat_le.mp hge))]
    rfl

theorem fit?_eq_none_iff {t : IntegerType} :
    n.fit? t = none ↔ ¬(t.min ≤ n.value ∧ n.value ≤ t.max) := by
  rw [← IntegerType.admits_iff]
  unfold fit?
  simp

theorem map_toInt64? : n.toInt64?.map Int64.toInt = n.fit? .signed64 := by
  ext v
  rw [fit?_eq_some_iff, Option.map_eq_some_iff]
  constructor
  · rintro ⟨w, hw, rfl⟩
    exact ⟨(toInt_of_toInt64? hw).symm, exists_int64_iff.mp ⟨w, rfl⟩⟩
  · rintro ⟨rfl, hle, hge⟩
    obtain ⟨w, hw⟩ := Option.isSome_iff_exists.mp (isSome_toInt64? hle hge)
    exact ⟨w, hw, toInt_of_toInt64? hw⟩

/-! ### Words of 32 bits -/

/-- A word of 64 bits whose number fits 32 bits keeps it when the word is cut down. -/
theorem toInt_toInt32 {w : Int64} (hle : Int32.minValue.toInt64 ≤ w)
    (hge : w ≤ Int32.maxValue.toInt64) : w.toInt32.toInt = w.toInt := by
  rw [Int64.le_iff_toInt_le] at hle hge
  rw [Int64.toInt_toInt32]
  exact Int.bmod_eq_of_le hle (Int.lt_of_le_of_lt hge (by decide))

theorem map_toInt32? : n.toInt32?.map Int32.toInt = n.fit? .signed32 := by
  ext v
  rw [fit?_eq_some_iff, Option.map_eq_some_iff]
  unfold toInt32?
  constructor
  · rintro ⟨w, hw, rfl⟩
    refine ⟨?_, exists_int32_iff.mp ⟨w, rfl⟩⟩
    split at hw
    · rename_i x hx
      split at hw
      · rename_i hbounds
        cases hw
        rw [toInt_toInt32 hbounds.1 hbounds.2, toInt_of_toInt64? hx]
      · cases hw
    · cases hw
  · rintro ⟨rfl, hle, hge⟩
    obtain ⟨x, hx⟩ := Option.isSome_iff_exists.mp
      (isSome_toInt64? (Int.le_trans (by decide) hle) (Int.le_trans hge (by decide)))
    have hvalue := toInt_of_toInt64? hx
    have hlow : Int32.minValue.toInt64 ≤ x := by
      rw [Int64.le_iff_toInt_le, hvalue]
      exact hle
    have hhigh : x ≤ Int32.maxValue.toInt64 := by
      rw [Int64.le_iff_toInt_le, hvalue]
      exact hge
    refine ⟨x.toInt32, ?_, by rw [toInt_toInt32 hlow hhigh, hvalue]⟩
    rw [hx]
    exact if_pos ⟨hlow, hhigh⟩

/-! ### Words of 128 bits -/

theorem toInt_wide : n.wide.toInt = n.magnitude.toNat := by
  have hm := n.magnitude.toNat_lt
  have hwide : n.wide.toNat = n.magnitude.toNat := by
    rw [wide, BitVec.toNat_setWidth, UInt64.toNat_toBitVec]
    exact Nat.mod_eq_of_lt (Nat.lt_trans hm (by decide))
  rw [← hwide]
  exact BitVec.toInt_eq_toNat_of_lt (by omega)

theorem negOverflow_wide (n : IntLiteral) : n.wide.negOverflow = false := by
  unfold BitVec.negOverflow
  rw [toInt_wide, beq_eq_false_iff_ne]
  omega

theorem toInt_toInt128 : n.toInt128.toInt = n.value := by
  unfold toInt128
  split
  · rename_i hneg
    have hkeeps := Bool.not_eq_true _ ▸ n.negOverflow_wide
    rw [BitVec.toInt_neg_of_not_negOverflow hkeeps, toInt_wide, value_of_negative hneg]
  · rename_i hneg
    rw [toInt_wide, value_of_not_negative (Bool.not_eq_true _ ▸ hneg)]

theorem map_between? {min max : BitVec 128} :
    (n.between? min max).map BitVec.toInt =
      if min.toInt ≤ n.value ∧ n.value ≤ max.toInt then some n.value else none := by
  unfold between?
  simp only [Bool.and_eq_true, BitVec.sle_iff_toInt_le, toInt_toInt128]
  split
  · exact congrArg some toInt_toInt128
  · rfl

theorem toInt_ofInt_min (t : IntegerType) : (BitVec.ofInt 128 t.min).toInt = t.min := by
  cases t <;> rfl

theorem toInt_ofInt_max (t : IntegerType) : (BitVec.ofInt 128 t.max).toInt = t.max := by
  cases t <;> rfl

/-! ### What checks make of a literal -/

/-- What a check comes to that lets the numbers between two bounds pass and reports others. -/
def verdict {α : Type} (n : IntLiteral) (least greatest : Int) (stored : Int → α)
    (complaint : Diagnostic) : Checked (Option α) :=
  if least ≤ n.value ∧ n.value ≤ greatest then ⟨some (stored n.value), []⟩
  else ⟨none, [complaint]⟩

theorem verdict_of_between {α : Type} {least greatest : Int} {stored : Int → α}
    {complaint : Diagnostic} (h : least ≤ n.value ∧ n.value ≤ greatest) :
    n.verdict least greatest stored complaint = ⟨some (stored n.value), []⟩ := if_pos h

theorem verdict_of_not_between {α : Type} {least greatest : Int} {stored : Int → α}
    {complaint : Diagnostic} (h : ¬(least ≤ n.value ∧ n.value ≤ greatest)) :
    n.verdict least greatest stored complaint = ⟨none, [complaint]⟩ := if_neg h

/-- What a check stores comes from the number, and the number is between the bounds. -/
theorem of_value_verdict {α : Type} {least greatest : Int} {stored : Int → α}
    {complaint : Diagnostic} {x : α}
    (h : (n.verdict least greatest stored complaint).value = some x) :
    x = stored n.value ∧ least ≤ n.value ∧ n.value ≤ greatest := by
  unfold verdict at h
  split at h
  · rename_i hbetween
    exact ⟨(Option.some.inj h).symm, hbetween⟩
  · cases h

theorem checkBetween_eq (n : IntLiteral) (expected : ValueClass) (min max : BitVec 128)
    (outside : IntLiteral → Diagnostic) :
    (OptionValue.int n).checkBetween expected min max outside =
      n.verdict min.toInt max.toInt id (outside n) := by
  rw [OptionValue.checkBetween, map_between?]
  by_cases h : min.toInt ≤ n.value ∧ n.value ≤ max.toInt
  · rw [if_pos h, verdict_of_between h]
    rfl
  · rw [if_neg h, verdict_of_not_between h]
    rfl

theorem checkInteger_eq (n : IntLiteral) (t : IntegerType) :
    (OptionValue.int n).checkInteger t =
      n.verdict t.min t.max id (.integerValueOutOfRange t n.value n.span) := by
  rw [OptionValue.checkInteger, checkBetween_eq, toInt_ofInt_min, toInt_ofInt_max]

/-- A check that takes the number in some range as it is. -/
theorem fitted_eq {α : Type} (n : IntLiteral) (t : IntegerType) (stored : Int → α)
    (complaint : Diagnostic) :
    (match n.fit? t with
      | some v => pure (some (stored v))
      | none => do
        Checked.report complaint
        pure none : Checked (Option α)) = n.verdict t.min t.max stored complaint := by
  by_cases h : t.min ≤ n.value ∧ n.value ≤ t.max
  · rw [fit?_eq_some_iff.mpr ⟨rfl, h⟩, verdict_of_between h]
    rfl
  · rw [fit?_eq_none_iff.mpr h, verdict_of_not_between h]
    rfl

theorem checkEnumNumber_eq (n : IntLiteral) :
    n.checkEnumNumber =
      n.verdict IntegerType.signed32.min IntegerType.signed32.max id
        (.invalidEnumNumber n.span) := by
  rw [checkEnumNumber, map_toInt32?]
  exact n.fitted_eq .signed32 id _

theorem checkMessageNumber_eq (n : IntLiteral) :
    n.checkMessageNumber = n.verdict 1 maxFieldNumber id (.invalidMessageNumber n.span) := by
  rw [checkMessageNumber, map_toInt32?]
  by_cases h : 1 ≤ n.value ∧ n.value ≤ maxFieldNumber
  · have hmax : n.value ≤ 536870911 := h.2
    rw [fit?_eq_some_iff.mpr ⟨rfl, Int.le_trans (by decide) h.1, Int.le_trans hmax (by decide)⟩]
    rw [verdict_of_between h]
    exact if_pos h
  · rw [verdict_of_not_between h]
    cases hfit : n.fit? .signed32 with
    | none => rfl
    | some v =>
        obtain ⟨rfl, -⟩ := fit?_eq_some_iff.mp hfit
        exact if_neg h

theorem custom_eq (h : n.negative = true) :
    (OptionValue.int n).custom =
      n.verdict IntegerType.signed64.min IntegerType.signed64.max CustomValue.negative
        (.integerValueOutOfRange .signed64 n.value n.span) := by
  rw [OptionValue.custom, if_pos h, map_toInt64?]
  exact n.fitted_eq .signed64 CustomValue.negative _

theorem checkScalar_eq {s : ScalarType} {t : IntegerType} (h : s.integerType? = some t) :
    (OptionValue.int n).checkScalar s =
      n.verdict t.min t.max toString (.integerValueOutOfRange t n.value n.span) := by
  unfold OptionValue.checkScalar
  rw [h]
  simp only [checkInteger_eq]
  by_cases hv : t.min ≤ n.value ∧ n.value ≤ t.max
  · rw [verdict_of_between hv, verdict_of_between hv]
    rfl
  · rw [verdict_of_not_between hv, verdict_of_not_between hv]
    rfl

/-! ### The number of a literal -/

/-- How the number of a literal is taken, by the words and by all checks. -/
structure ReadExactly (n : IntLiteral) : Prop where
  int64 : ∀ v : Int, n.toInt64?.map Int64.toInt = some v ↔
    v = n.value ∧ -9223372036854775808 ≤ v ∧ v ≤ 9223372036854775807
  int32 : ∀ v : Int, n.toInt32?.map Int32.toInt = some v ↔
    v = n.value ∧ -2147483648 ≤ v ∧ v ≤ 2147483647
  /-- A magnitude that is read as a signed word is that word, and can be negated. -/
  narrow : n.magnitude ≤ 9223372036854775807 →
    n.magnitude.toInt64.toInt = n.magnitude.toNat ∧
      n.magnitude.toInt64.toBitVec.negOverflow = false
  /-- Every magnitude is a signed word of 128 bits, and can be negated there. -/
  wide : n.wide.toInt = n.magnitude.toNat ∧ n.wide.negOverflow = false ∧
    n.toInt128.toInt = n.value
  between : ∀ (expected : ValueClass) (min max : BitVec 128) (outside : IntLiteral → Diagnostic),
    (OptionValue.int n).checkBetween expected min max outside =
      n.verdict min.toInt max.toInt id (outside n)
  messageNumber :
    n.checkMessageNumber = n.verdict 1 536870911 id (.invalidMessageNumber n.span)
  enumNumber :
    n.checkEnumNumber = n.verdict (-2147483648) 2147483647 id (.invalidEnumNumber n.span)
  /-- A negative value of an unknown option; what is not negative is kept as its magnitude. -/
  negativeOption : n.negative = true → (OptionValue.int n).custom =
    n.verdict (-9223372036854775808) 9223372036854775807 CustomValue.negative
      (.integerValueOutOfRange .signed64 n.value n.span)
  positiveOption : n.negative = false → ∃ m : Nat, n.value = m ∧
    (OptionValue.int n).custom = ⟨some (.positive m), []⟩
  /-- A default of an integer type is the number in decimal. -/
  default : ∀ s t, s.integerType? = some t → (OptionValue.int n).checkScalar s =
    n.verdict t.min t.max toString (.integerValueOutOfRange t n.value n.span)
  /-- Whichever checks let a literal pass, they take it for the same number. -/
  agree : ∀ v : Int,
    (n.checkMessageNumber.value = some v ∨ n.checkEnumNumber.value = some v ∨
      (n.negative = true ∧ (OptionValue.int n).custom.value = some (.negative v)) ∨
      ∃ t, ((OptionValue.int n).checkInteger t).value = some v) → v = n.value

/-- Literals are read exactly, whatever their sign and their magnitude. -/
theorem readExactly (n : IntLiteral) : n.ReadExactly where
  int64 v := by
    rw [map_toInt64?, fit?_eq_some_iff, eq_comm]
    rfl
  int32 v := by
    rw [map_toInt32?, fit?_eq_some_iff, eq_comm]
    rfl
  narrow h := ⟨toInt_toInt64 h, negOverflow_toInt64 h⟩
  wide := ⟨toInt_wide, n.negOverflow_wide, toInt_toInt128⟩
  between := n.checkBetween_eq
  messageNumber := n.checkMessageNumber_eq
  enumNumber := n.checkEnumNumber_eq
  negativeOption := custom_eq
  positiveOption h := by
    refine ⟨n.magnitude.toNat, value_of_not_negative h, ?_⟩
    rw [OptionValue.custom, if_neg (by rw [h]; exact Bool.false_ne_true)]
    rfl
  default _ _ := checkScalar_eq
  agree v := by
    rintro (h | h | ⟨hneg, h⟩ | ⟨t, h⟩)
    · rw [checkMessageNumber_eq] at h
      exact (of_value_verdict h).1
    · rw [checkEnumNumber_eq] at h
      exact (of_value_verdict h).1
    · rw [custom_eq hneg] at h
      exact CustomValue.negative.inj (of_value_verdict h).1
    · rw [checkInteger_eq] at h
      exact (of_value_verdict h).1

end IntLiteral

end ProtoSchema
