/-
Reading options.

An option with the simple name of a known one sets that one, once; every other option
is kept as it was written.  Setting a known option again is reported and changes
nothing, whatever became of the first attempt.
-/
import ProtoSchema.Assembly.Checked
import ProtoSchema.Descriptor.Basic
import ProtoSchema.Text.Utf8

namespace ProtoSchema

open Checked

/-! ### Values -/

/-- Reports that a value is not of some class. -/
def OptionValue.refuse {α : Type} (v : OptionValue) (expected : ValueClass) :
    Checked (Option α) := do
  report (.valueInvalidType expected v.text v.span)
  pure none

namespace OptionValue

/-- A value that is the word `true` or the word `false`. -/
def checkFlag (v : OptionValue) : Checked (Option Bool) :=
  match v with
  | .ident false name _ =>
    if name.text = "true" then pure (some true)
    else if name.text = "false" then pure (some false)
    else v.refuse .boolean
  | _ => v.refuse .boolean

/-- A value that is a string. -/
def checkBytes (v : OptionValue) : Checked (Option (List UInt8)) :=
  match v with
  | .string s => pure (some s.bytes)
  | _ => v.refuse .string

/-- A value that is a string of characters. -/
def checkText (v : OptionValue) : Checked (Option String) := do
  match ← v.checkBytes with
  | some bytes =>
    match Utf8.decode? bytes with
    | some text => pure (some (String.ofList text))
    | none => do
      report (.invalidUtf8String v.span)
      pure none
  | none => pure none

/-- A value that is one of some words, by the number of that word. -/
def checkChoice (v : OptionValue) (enum : String) (values : List (String × Nat)) :
    Checked (Option Nat) :=
  match v with
  | .ident false name _ =>
    match values.lookup name.text with
    | some n => pure (some n)
    | none => v.refuse (.enumValue enum)
  | _ => v.refuse (.enumValue enum)

end OptionValue

/-! ### Options that are not known -/

/-- The value of an option that is not known. -/
def OptionValue.custom : OptionValue → Checked (Option CustomValue)
  | .ident false name _ => pure (some (.identifier name.text))
  | .ident true name _ =>
    pure (some (.double (if name.text = "inf" then Binary64.infinity.neg else Binary64.nan)))
  | .int n =>
    if n.negative then
      match n.toInt64?.map Int64.toInt with
      | some v => pure (some (.negative v))
      | none => do
        report (.integerValueOutOfRange .signed64 n.value n.span)
        pure none
    else pure (some (.positive n.magnitude.toNat))
  | .float x _ => pure (some (.double x))
  | .string s => pure (some (.string s.bytes))
  | .aggregate text _ => pure (some (.aggregate text))

/-- A part of an option's name; the parentheses of an extension are not part of it. -/
def OptionNamePart.custom : OptionNamePart → CustomNamePart
  | .ident name => ⟨name.text, false⟩
  | .extension name _ => ⟨name.text, true⟩

/-- An option as it was written. -/
def OptionSetting.custom (o : OptionSetting) : Checked CustomOption := do
  let value ← o.value.custom
  pure ⟨o.parts.map OptionNamePart.custom, value⟩

/-! ### Lists of options -/

/-- What a list of options amounts to. -/
structure OptionReading (κ : Type) where
  settings : List (κ × SettingValue)
  /-- The options that are left to be checked with their declaration. -/
  deferred : List (κ × OptionSetting)
  custom : List CustomOption

namespace OptionReading

variable {κ : Type}

def empty : OptionReading κ := ⟨[], [], []⟩

/-- A reading with a known option in front, if that has a value. -/
def addSetting (key : κ) (value : Option SettingValue) (r : OptionReading κ) : OptionReading κ :=
  { r with settings := (value.map (key, ·)).toList ++ r.settings }

def addDeferred (key : κ) (o : OptionSetting) (r : OptionReading κ) : OptionReading κ :=
  { r with deferred := (key, o) :: r.deferred }

def addCustom (o : CustomOption) (r : OptionReading κ) : OptionReading κ :=
  { r with custom := o :: r.custom }

/-- The options that a reading sets, unless there are none. -/
def options? (r : OptionReading κ) : Option (Options κ) :=
  Options.nonempty? ⟨r.settings, r.custom⟩

end OptionReading

section

variable {κ : Type} [OptionKey κ]

/-- The known option that a setting names, and the word that names it. -/
def OptionSetting.known? (κ : Type) [OptionKey κ] (o : OptionSetting) : Option (κ × Ident) :=
  match o.simpleName? with
  | some name => (OptionKey.ofName? κ name.text).map (·, name)
  | none => none

/-- What setting a known option adds to a reading. -/
def OptionSetting.apply (o : OptionSetting) (key : κ) :
    Checked (OptionReading κ → OptionReading κ) :=
  match OptionKey.form key with
  | .flag => do
    let v ← o.value.checkFlag
    pure (.addSetting key (v.map .flag))
  | .text => do
    let v ← o.value.checkText
    pure (.addSetting key (v.map .text))
  | .choice enum values => do
    let v ← o.value.checkChoice enum values
    pure (.addSetting key (v.map .choice))
  | .refused => do
    report (.mapEntryOptionSet o.nameSpan)
    pure id
  | .deferred => pure (.addDeferred key o)

variable [DecidableEq κ]

/-- Reads options, of which those in `seen` were set before, each at its place. -/
def readOptionsAfter : (seen : List (κ × Span)) → List OptionSetting → Checked (OptionReading κ)
  | _, [] => pure .empty
  | seen, o :: os =>
    match o.known? κ with
    | some (key, name) =>
      match seen.lookup key with
      | some earlier => do
        report (.duplicateOption name.text earlier name.span)
        readOptionsAfter seen os
      | none => do
        let add ← o.apply key
        let r ← readOptionsAfter ((key, name.span) :: seen) os
        pure (add r)
    | none => do
      let c ← o.custom
      let r ← readOptionsAfter seen os
      pure (r.addCustom c)

/-- Reads options. -/
def readOptions (os : List OptionSetting) : Checked (OptionReading κ) := readOptionsAfter [] os

/-- The options of a declaration, unless there are none. -/
def optionsOf (os : List OptionSetting) : Checked (Option (Options κ)) := do
  let r ← readOptions os
  pure r.options?

end

end ProtoSchema
