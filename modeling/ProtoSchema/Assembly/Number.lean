/-
Numbers, ranges of numbers and reservations.

The numbers of message fields and those of enum values have different limits, and the
ranges of both are checked against them.  A message or enum can reserve numbers and
names, and a message can leave numbers to extensions; what is reserved must not be used.
-/
import ProtoSchema.Assembly.Checked
import ProtoSchema.Tree.Declaration

namespace ProtoSchema

open Checked

/-! ### Single numbers -/

/-- A number of a message: from one to the largest field number. -/
def IntLiteral.checkMessageNumber (n : IntLiteral) : Checked (Option Int) := do
  match n.toInt32?.map Int32.toInt with
  | some v =>
    if 1 ≤ v ∧ v ≤ maxFieldNumber then pure (some v)
    else do
      report (.invalidMessageNumber n.span)
      pure none
  | none => do
    report (.invalidMessageNumber n.span)
    pure none

/-- The number of a field.  Some numbers belong to the implementation. -/
def IntLiteral.checkFieldNumber (n : IntLiteral) : Checked (Option Int) := do
  match ← n.checkMessageNumber with
  | some v => do
    reportIf (19000 ≤ v ∧ v ≤ 19999) (.reservedMessageNumber n.span)
    pure (some v)
  | none => pure none

/-- A number of an enum: any signed integer of 32 bits. -/
def IntLiteral.checkEnumNumber (n : IntLiteral) : Checked (Option Int) := do
  match n.toInt32?.map Int32.toInt with
  | some v => pure (some v)
  | none => do
    report (.invalidEnumNumber n.span)
    pure none

/-! ### Ranges -/

/-- A checked range with both bounds included; a bound that is wrong is absent. -/
structure CheckedRange where
  start : Option Int
  stop : Option Int
  span : Span
deriving DecidableEq, Repr

namespace CheckedRange

/-- Whether a number lies in a range that has both bounds. -/
def contains (r : CheckedRange) (n : Int) : Bool :=
  match r.start, r.stop with
  | some a, some b => a ≤ n && n ≤ b
  | _, _ => false

end CheckedRange

/-- A range whose numbers pass a check, and whose greatest possible number is `greatest`. -/
def NumberRange.check (r : NumberRange) (number : IntLiteral → Checked (Option Int))
    (greatest : Int) : Checked CheckedRange := do
  let start ← number r.start
  let stop ← match r.stop with
    | .same => pure start
    | .to n => number n
    | .max _ => pure (some greatest)
  match start, stop with
  | some a, some b =>
    if b < a then do
      report (.invalidRange r.span)
      pure ⟨some a, none, r.span⟩
    else pure ⟨some a, some b, r.span⟩
  | _, _ => pure ⟨start, stop, r.span⟩

/-- A range of numbers of a message. -/
def NumberRange.checkMessage (r : NumberRange) : Checked CheckedRange :=
  r.check IntLiteral.checkMessageNumber maxFieldNumber

/-- A range of numbers of an enum. -/
def NumberRange.checkEnum (r : NumberRange) : Checked CheckedRange :=
  r.check IntLiteral.checkEnumNumber IntegerType.signed32.max

/-! ### Reservations -/

/-- What reservations reserve: numbers and names. -/
structure Reservations where
  ranges : List CheckedRange
  names : List Ident
deriving DecidableEq, Repr

/-- The ranges and names of some reservations, with the ranges checked. -/
def Reserved.check (range : NumberRange → Checked CheckedRange) (rs : List Reserved) :
    Checked Reservations := do
  let parts ← each (fun r : Reserved =>
    match r.kind with
    | .ranges ranges => do
      let checked ← each range ranges
      pure (⟨checked, []⟩ : Reservations)
    | .names names => pure ⟨[], names⟩) rs
  pure ⟨parts.flatMap Reservations.ranges, parts.flatMap Reservations.names⟩

/-- Reports a number that lies in a reserved range, or in a range for extensions. -/
def checkUnreserved (reserved extensions : List CheckedRange) (number : Int) (span : Span) :
    Checked Unit := do
  match reserved.find? (·.contains number) with
  | some r => report (.reservedFieldNumber number span r.span)
  | none => pure ()
  match extensions.find? (·.contains number) with
  | some r => report (.fieldNumberInExtensionRange number span r.span)
  | none => pure ()

/-- Reports a name that is reserved. -/
def checkUnreservedName (reserved : List Ident) (name : Ident) : Checked Unit :=
  match reserved.find? (·.text = name.text) with
  | some r => report (.reservedFieldName name.text name.span r.span)
  | none => pure ()

/--
Reports fields whose numbers are taken or reserved, and whose names are reserved.  The
fields come with their numbers, if these are legal; those in `seen` were used before,
each at its place.
-/
def checkFieldNumbers (reservations : Reservations) (extensions : List CheckedRange) :
    (seen : List (Int × Span)) → List (Option Int × Field) → Checked Unit
  | _, [] => pure ()
  | seen, (none, f) :: fs => do
    checkUnreservedName reservations.names f.name
    checkFieldNumbers reservations extensions seen fs
  | seen, (some n, f) :: fs => do
    let earlier := seen.lookup n
    match earlier with
    | some s => report (.duplicateNumber n s f.number.span)
    | none => pure ()
    checkUnreserved reservations.ranges extensions n f.number.span
    checkUnreservedName reservations.names f.name
    checkFieldNumbers reservations extensions
      (if earlier.isSome then seen else (n, f.number.span) :: seen) fs

end ProtoSchema
