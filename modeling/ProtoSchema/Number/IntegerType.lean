/-
The four ranges of integers that fields and options use.
-/

namespace ProtoSchema

/-- A range of integers that fits a word of 32 or 64 bits. -/
inductive IntegerType where
  | signed32 | signed64 | unsigned32 | unsigned64
deriving DecidableEq, Repr

namespace IntegerType

/-- The least value. -/
def min : IntegerType → Int
  | signed32 => -2147483648
  | signed64 => -9223372036854775808
  | unsigned32 | unsigned64 => 0

/-- The greatest value. -/
def max : IntegerType → Int
  | signed32 => 2147483647
  | signed64 => 9223372036854775807
  | unsigned32 => 4294967295
  | unsigned64 => 18446744073709551615

/-- Whether a value lies in the range. -/
def admits (t : IntegerType) (value : Int) : Bool := t.min ≤ value && value ≤ t.max

theorem admits_iff {t : IntegerType} {value : Int} :
    t.admits value ↔ t.min ≤ value ∧ value ≤ t.max := by
  simp [admits]

/-- How messages name the range. -/
def text : IntegerType → String
  | signed32 => "a signed 32-bit integer"
  | signed64 => "a signed 64-bit integer"
  | unsigned32 => "an unsigned 32-bit integer"
  | unsigned64 => "an unsigned 64-bit integer"

end IntegerType

end ProtoSchema
