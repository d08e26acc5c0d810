/-
The types of fields that need no declaration.
-/

namespace ProtoSchema

/-- A built-in type of field values. -/
inductive ScalarType where
  | double | float | int32 | int64 | uint32 | uint64 | sint32 | sint64
  | fixed32 | fixed64 | sfixed32 | sfixed64 | bool | string | bytes
deriving DecidableEq, Repr

namespace ScalarType

/-- The spelling of a type. -/
def text : ScalarType → String
  | double => "double"
  | float => "float"
  | int32 => "int32"
  | int64 => "int64"
  | uint32 => "uint32"
  | uint64 => "uint64"
  | sint32 => "sint32"
  | sint64 => "sint64"
  | fixed32 => "fixed32"
  | fixed64 => "fixed64"
  | sfixed32 => "sfixed32"
  | sfixed64 => "sfixed64"
  | bool => "bool"
  | string => "string"
  | bytes => "bytes"

def all : List ScalarType :=
  [double, float, int32, int64, uint32, uint64, sint32, sint64, fixed32, fixed64, sfixed32,
   sfixed64, bool, string, bytes]

/-- The type that a word spells, if it spells one. -/
def ofText? (word : String) : Option ScalarType := all.find? (·.text = word)

theorem ofText?_text (t : ScalarType) : ofText? t.text = some t := by cases t <;> decide

theorem text_of_ofText? {word : String} {t : ScalarType} (h : ofText? word = some t) :
    t.text = word := by
  simpa using List.find?_some h

/-- Whether values of the type can be the keys of a map: integers, booleans and strings. -/
def isMapKey : ScalarType → Bool
  | double | float | bytes => false
  | _ => true

end ScalarType

end ProtoSchema
