/-
Literals and options as they are written.

An integer is a sign and a magnitude of 64 bits, so minus zero is a way to write zero
and the least signed number is written without overflow.  Who needs its number takes it as
a signed word of 32, 64 or 128 bits, and the last of these holds every literal.  An option
is a name of one or more parts with a value of one of five forms.
-/
import ProtoSchema.Number.Binary64
import ProtoSchema.Number.IntegerType
import ProtoSchema.Text.Escape
import ProtoSchema.Tree.Name

namespace ProtoSchema

/-! ### Literals -/

/-- An integer with its sign. -/
structure IntLiteral where
  negative : Bool
  magnitude : UInt64
  span : Span
deriving DecidableEq, Repr, Inhabited

namespace IntLiteral

/-- The number that a literal denotes. -/
def value (n : IntLiteral) : Int :=
  if n.negative then -(n.magnitude.toNat : Int) else n.magnitude.toNat

/-- The number, if it lies in a range. -/
def fit? (n : IntLiteral) (t : IntegerType) : Option Int :=
  if t.admits n.value then some n.value else none

theorem fit?_eq_some_iff {n : IntLiteral} {t : IntegerType} {v : Int} :
    n.fit? t = some v ↔ n.value = v ∧ t.min ≤ v ∧ v ≤ t.max := by
  unfold fit?
  split
  · rename_i h
    rw [IntegerType.admits_iff] at h
    constructor
    · rintro ⟨⟩
      exact ⟨rfl, h⟩
    · rintro ⟨rfl, -⟩
      rfl
  · rename_i h
    rw [IntegerType.admits_iff] at h
    constructor
    · rintro ⟨⟩
    · rintro ⟨rfl, h'⟩
      exact absurd h' h

/--
The number as a signed word of 64 bits, if it is the number of one.  The least of these
words is not the negative of another.
-/
def toInt64? (n : IntLiteral) : Option Int64 :=
  if n.negative then
    if n.magnitude ≤ 9223372036854775807 then some (-n.magnitude.toInt64)
    else if n.magnitude = 9223372036854775808 then some Int64.minValue
    else none
  else if n.magnitude ≤ 9223372036854775807 then some n.magnitude.toInt64
  else none

/-- The number as a signed word of 32 bits, if it is the number of one. -/
def toInt32? (n : IntLiteral) : Option Int32 :=
  match n.toInt64? with
  | some v =>
    if Int32.minValue.toInt64 ≤ v ∧ v ≤ Int32.maxValue.toInt64 then some v.toInt32 else none
  | none => none

/-- The magnitude as a word of 128 bits. -/
def wide (n : IntLiteral) : BitVec 128 := n.magnitude.toBitVec.setWidth 128

/-- The number as a signed word of 128 bits. -/
def toInt128 (n : IntLiteral) : BitVec 128 := if n.negative then -n.wide else n.wide

/-- The signed word of 128 bits, if it lies between two others. -/
def between? (n : IntLiteral) (min max : BitVec 128) : Option (BitVec 128) :=
  if min.sle n.toInt128 && n.toInt128.sle max then some n.toInt128 else none

/-- The magnitude in decimal, with the sign that was written. -/
def text (n : IntLiteral) : String :=
  (if n.negative then "-" else "") ++ toString n.magnitude.toNat

end IntLiteral

/-- One or more string literals in a row, by their bytes. -/
structure StringLiteral where
  bytes : List UInt8
  span : Span
deriving DecidableEq, Repr, Inhabited

/-! ### Options -/

/-- The value of an option. -/
inductive OptionValue where
  | ident (negative : Bool) (name : Ident) (span : Span)
  | int (n : IntLiteral)
  | float (value : Binary64) (span : Span)
  | string (s : StringLiteral)
  /-- A block in braces, by the text between them. -/
  | aggregate (text : String) (span : Span)
deriving DecidableEq, Repr, Inhabited

namespace OptionValue

def span : OptionValue → Span
  | ident _ _ s | float _ s | aggregate _ s => s
  | int n => n.span
  | string s => s.span

/-- A value as messages show it. -/
def text : OptionValue → String
  | ident negative name _ => (if negative then "-" else "") ++ name.text
  | int n => n.text
  | float value _ => value.literalText
  | string s => Text.quote s.bytes
  | aggregate text _ => "\x7b" ++ text ++ "\x7d"

end OptionValue

/-- A part of an option's name: a word, or the name of an extension in parentheses. -/
inductive OptionNamePart where
  | ident (name : Ident)
  | extension (name : TypeName) (span : Span)
deriving DecidableEq, Repr, Inhabited

namespace OptionNamePart

def span : OptionNamePart → Span
  | ident name => name.span
  | extension _ s => s

def text : OptionNamePart → String
  | ident name => name.text
  | extension name _ => "(" ++ name.text ++ ")"

end OptionNamePart

/-- A name and the value it is set to. -/
structure OptionSetting where
  first : OptionNamePart
  rest : List OptionNamePart
  value : OptionValue
deriving DecidableEq, Repr, Inhabited

namespace OptionSetting

/-- The parts of the name. -/
def parts (o : OptionSetting) : List OptionNamePart := o.first :: o.rest

def nameSpan (o : OptionSetting) : Span := o.first.span.through (o.rest.getLastD o.first).span

/-- From the name to the end of the value. -/
def span (o : OptionSetting) : Span := o.nameSpan.through o.value.span

/-- The name, if it is one plain word. -/
def simpleName? (o : OptionSetting) : Option Ident :=
  match o.first, o.rest with
  | .ident name, [] => some name
  | _, _ => none

end OptionSetting

/-- An option set by a statement of its own. -/
structure OptionStatement where
  setting : OptionSetting
  span : Span
deriving DecidableEq, Repr, Inhabited

/-- Options set in brackets behind a declaration. -/
structure OptionList where
  settings : List OptionSetting
  span : Span
deriving DecidableEq, Repr, Inhabited

/-- The options of a list that may be missing. -/
def OptionList.settingsOf (list : Option OptionList) : List OptionSetting :=
  match list with
  | some l => l.settings
  | none => []

end ProtoSchema
