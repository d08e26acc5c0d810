/-
Numbers and reservations are checked exactly.

A descriptor shows whether the numbers of a message or an enum are as they should be.  A
number that is not legal is absent from it, and so is an end of a range before its start; the
rest are comparisons.  `IsNumbered` collects what there is to compare, in the terms of the
descriptor, where ranges of a message end behind their last number and those of an enum with
it.  The checks work on other data, with both ends included and every number at its place in
the source.  That they report nothing about numbers means just that the descriptor is numbered.

Each lemma says of one check when it is quiet, by its value alone.
-/
import ProtoSchema.Proofs.Assembly.Quiet
import ProtoSchema.Proofs.Assembly.SignedWords

namespace ProtoSchema

/-! ### Descriptors with their numbers in order -/

/-- A number that a field can have, neither too large nor kept for implementations. -/
def IsFieldNumber (number : Option Int) : Prop :=
  ∃ n, number = some n ∧ 1 ≤ n ∧ n ≤ 536870911 ∧ ¬(19000 ≤ n ∧ n ≤ 19999)

namespace RangeDescriptor

/-- The number lies in the range, if the end of the range is not part of it. -/
def ContainsBelow (r : RangeDescriptor) (n : Int) : Prop :=
  ∃ start stop, r = ⟨some start, some stop⟩ ∧ start ≤ n ∧ n < stop

/-- The number lies in the range, if the end of the range is part of it. -/
def ContainsThrough (r : RangeDescriptor) (n : Int) : Prop :=
  ∃ start stop, r = ⟨some start, some stop⟩ ∧ start ≤ n ∧ n ≤ stop

end RangeDescriptor

/-- The numbers and names of a message are legal, and none is used that is not free. -/
structure MessageDescriptor.IsNumbered (d : MessageDescriptor) : Prop where
  numbers : ∀ f ∈ d.fields, IsFieldNumber f.number
  distinct : (d.fields.map FieldDescriptor.number).Nodup
  reserved : ∀ f ∈ d.fields, ∀ n, f.number = some n → ∀ r ∈ d.reservedRanges, ¬r.ContainsBelow n
  extensible : ∀ f ∈ d.fields, ∀ n, f.number = some n →
    ∀ r ∈ d.extensionRanges, ¬r.range.ContainsBelow n
  names : ∀ f ∈ d.fields, f.name ∉ d.reservedNames
  ranges : ∀ r ∈ d.reservedRanges ++ d.extensionRanges.map ExtensionRangeDescriptor.range,
    ∃ start stop, r = ⟨some start, some stop⟩ ∧ start < stop ∧ stop ≤ 536870912
  /-- The extensions that are declared in the message, which may extend another one. -/
  extensions : ∀ f ∈ d.extensions, IsFieldNumber f.number

/-- The same of an enum, whose values may share a number. -/
structure EnumDescriptor.IsNumbered (d : EnumDescriptor) : Prop where
  numbers : ∀ v ∈ d.values, ∃ n, v.number = some n ∧ -2147483648 ≤ n ∧ n ≤ 2147483647
  reserved : ∀ v ∈ d.values, ∀ n, v.number = some n → ∀ r ∈ d.reservedRanges, ¬r.ContainsThrough n
  names : ∀ v ∈ d.values, v.name ∉ d.reservedNames
  ranges : ∀ r ∈ d.reservedRanges, ∃ start stop, r = ⟨some start, some stop⟩ ∧ start ≤ stop

namespace Checked

/-! ### Single numbers -/

/-- A check that reports numbers which are out of bounds is quiet if it lets a number pass. -/
theorem quiet_verdict {α : Type} (n : IntLiteral) (least greatest : Int) (stored : Int → α)
    {complaint : Diagnostic} (h : complaint.isNumbering = true) :
    (n.verdict least greatest stored complaint).Quiet ↔
      (n.verdict least greatest stored complaint).value.isSome = true := by
  unfold IntLiteral.verdict Quiet
  split
  · simp
  · simp [h]

theorem quiet_checkMessageNumber (n : IntLiteral) :
    n.checkMessageNumber.Quiet ↔ n.checkMessageNumber.value.isSome = true := by
  rw [n.checkMessageNumber_eq]
  exact quiet_verdict n _ _ _ rfl

theorem bounds_checkMessageNumber {n : IntLiteral} {v : Int}
    (h : n.checkMessageNumber.value = some v) : 1 ≤ v ∧ v ≤ maxFieldNumber := by
  rw [n.checkMessageNumber_eq] at h
  obtain ⟨rfl, hbounds⟩ := IntLiteral.of_value_verdict h
  exact hbounds

theorem quiet_checkFieldNumber (n : IntLiteral) :
    n.checkFieldNumber.Quiet ↔ IsFieldNumber n.checkFieldNumber.value := by
  unfold IntLiteral.checkFieldNumber
  rw [quiet_bind, quiet_checkMessageNumber, value_bind]
  cases hnumber : n.checkMessageNumber.value with
  | none =>
      refine ⟨fun h => absurd h.1 (by simp), ?_⟩
      rintro ⟨v, hv, -⟩
      cases hv
  | some v =>
      obtain ⟨hlow, hhigh⟩ := bounds_checkMessageNumber hnumber
      have hmax : v ≤ 536870911 := hhigh
      simp [IsFieldNumber, Diagnostic.isNumbering]
      omega

theorem quiet_checkEnumNumber (n : IntLiteral) :
    n.checkEnumNumber.Quiet ↔ n.checkEnumNumber.value.isSome = true := by
  rw [n.checkEnumNumber_eq]
  exact quiet_verdict n _ _ _ rfl

theorem bounds_checkEnumNumber {n : IntLiteral} {v : Int} (h : n.checkEnumNumber.value = some v) :
    -2147483648 ≤ v ∧ v ≤ 2147483647 := by
  rw [n.checkEnumNumber_eq] at h
  obtain ⟨rfl, hbounds⟩ := IntLiteral.of_value_verdict h
  exact hbounds

/-! ### Ranges -/

end Checked

/-- Both ends are there, in order. -/
def CheckedRange.IsWhole (r : CheckedRange) : Prop :=
  ∃ start stop, r.start = some start ∧ r.stop = some stop ∧ start ≤ stop

namespace Checked

/-- The end of a range, before it is compared with the start. -/
def stopOf (r : NumberRange) (number : IntLiteral → Checked (Option Int)) (greatest : Int)
    (start : Option Int) : Checked (Option Int) :=
  match r.stop with
  | .same => pure start
  | .to n => number n
  | .max _ => pure (some greatest)

/-- The range between two ends, if they are in order. -/
def rangeOf (r : NumberRange) (start stop : Option Int) : Checked CheckedRange :=
  match start, stop with
  | some a, some b =>
    if b < a then do
      report (.invalidRange r.span)
      pure ⟨some a, none, r.span⟩
    else pure ⟨some a, some b, r.span⟩
  | _, _ => pure ⟨start, stop, r.span⟩

theorem check_eq (r : NumberRange) (number : IntLiteral → Checked (Option Int)) (greatest : Int) :
    r.check number greatest = (do
      let start ← number r.start
      let stop ← stopOf r number greatest start
      rangeOf r start stop) := by
  obtain ⟨first, last⟩ := r
  refine congrArg (number first >>= ·) (funext fun start => ?_)
  match last with
  | .same => cases start <;> rfl
  | .to n =>
      refine congrArg (number n >>= ·) (funext fun stop => ?_)
      cases start <;> cases stop <;> rfl
  | .max s => cases start <;> rfl

theorem quiet_rangeOf (r : NumberRange) (start stop : Option Int) :
    ((rangeOf r start stop).Quiet ∧ start.isSome = true ∧ stop.isSome = true) ↔
      (rangeOf r start stop).value.IsWhole := by
  unfold CheckedRange.IsWhole rangeOf
  cases start with
  | none => simp
  | some a =>
      cases stop with
      | none => simp
      | some b =>
          by_cases hlt : b < a
          · simp [hlt, Diagnostic.isNumbering]
          · simp [hlt]
            omega

/-- Where single numbers are present if nothing is reported of them, so are ranges. -/
theorem quiet_check {number : IntLiteral → Checked (Option Int)}
    (hn : ∀ n, (number n).Quiet ↔ (number n).value.isSome = true) (r : NumberRange)
    (greatest : Int) :
    (r.check number greatest).Quiet ↔ (r.check number greatest).value.IsWhole := by
  rw [check_eq, quiet_bind, quiet_bind, value_bind, value_bind, hn, ← quiet_rangeOf]
  have hstop : (number r.start).value.isSome = true →
      ((stopOf r number greatest (number r.start).value).Quiet ↔
        (stopOf r number greatest (number r.start).value).value.isSome = true) := by
    intro hstart
    unfold stopOf
    split
    · simp [hstart]
    · exact hn _
    · simp
  grind

/-- No range ends behind the greatest number. -/
theorem stop_check_le {number : IntLiteral → Checked (Option Int)} {greatest : Int}
    (hn : ∀ n v, (number n).value = some v → v ≤ greatest) (r : NumberRange) {b : Int}
    (h : (r.check number greatest).value.stop = some b) : b ≤ greatest := by
  rw [check_eq, value_bind, value_bind] at h
  have hstop : (stopOf r number greatest (number r.start).value).value = some b := by
    unfold rangeOf at h
    split at h
    · rename_i heq
      split at h
      · cases h
      · rw [heq]
        exact h
    · exact h
  unfold stopOf at hstop
  split at hstop
  · exact hn _ _ hstop
  · exact hn _ _ hstop
  · obtain rfl := Option.some.inj hstop
    exact Int.le_refl _

/-- Reservations are quiet if their ranges are. -/
theorem quiet_reserved {range : NumberRange → Checked CheckedRange}
    (hr : ∀ r, (range r).Quiet ↔ (range r).value.IsWhole) (rs : List Reserved) :
    (Reserved.check range rs).Quiet ↔
      ∀ r ∈ (Reserved.check range rs).value.ranges, r.IsWhole := by
  unfold Reserved.check
  simp only [quiet_bind, quiet_each, quiet_pure, and_true, value_bind, value_each, value_pure,
    List.mem_flatMap, List.mem_map]
  constructor
  · rintro h r ⟨_, ⟨reserved, hreserved, rfl⟩, hmem⟩
    have hquiet := h reserved hreserved
    split at hmem
    · rename_i ranges hkind
      rw [hkind] at hquiet
      simp only [quiet_bind, quiet_each, quiet_pure, and_true] at hquiet
      simp only [value_bind, value_each, value_pure, List.mem_map] at hmem
      obtain ⟨n, hn, rfl⟩ := hmem
      exact (hr n).mp (hquiet n hn)
    · cases hmem
  · intro h reserved hreserved
    split
    · rename_i ranges hkind
      simp only [quiet_bind, quiet_each, quiet_pure, and_true]
      refine fun n hn => (hr n).mpr (h _ ⟨_, ⟨reserved, hreserved, rfl⟩, ?_⟩)
      rw [hkind]
      simp only [value_bind, value_each, value_pure, List.mem_map]
      exact ⟨n, hn, rfl⟩
    · exact quiet_pure _

/-- What a range of a reservation is, it is by its check. -/
theorem mem_reserved {range : NumberRange → Checked CheckedRange} {rs : List Reserved}
    {r : CheckedRange} (h : r ∈ (Reserved.check range rs).value.ranges) :
    ∃ n, r = (range n).value := by
  unfold Reserved.check at h
  simp only [value_bind, value_each, value_pure, List.mem_flatMap, List.mem_map] at h
  obtain ⟨_, ⟨reserved, -, rfl⟩, hmem⟩ := h
  split at hmem
  · simp only [value_bind, value_each, value_pure, List.mem_map] at hmem
    obtain ⟨n, -, rfl⟩ := hmem
    exact ⟨n, rfl⟩
  · cases hmem

theorem quiet_checkMessage (r : NumberRange) :
    r.checkMessage.Quiet ↔ r.checkMessage.value.IsWhole :=
  quiet_check quiet_checkMessageNumber r _

theorem quiet_checkEnum (r : NumberRange) : r.checkEnum.Quiet ↔ r.checkEnum.value.IsWhole :=
  quiet_check quiet_checkEnumNumber r _

/-- The ranges for extensions are quiet if they are whole. -/
theorem quiet_extensionRanges (es : List Extensions) :
    (each Context.extensionRanges es).Quiet ↔
      ∀ p ∈ (each Context.extensionRanges es).value.flatten, p.1.IsWhole := by
  unfold Context.extensionRanges
  simp only [quiet_each, quiet_bind, quiet_optionsOf, quiet_pure, true_and, and_true, value_each,
    value_bind, value_pure, List.mem_flatten, List.mem_map, quiet_checkMessage]
  constructor
  · rintro h p ⟨_, ⟨e, he, rfl⟩, hp⟩
    obtain ⟨r, hr, rfl⟩ := List.mem_map.mp hp
    obtain ⟨n, hn, rfl⟩ := List.mem_map.mp hr
    exact h e he n hn
  · intro h e he n hn
    refine h ⟨n.checkMessage.value, (optionsOf (OptionList.settingsOf e.options)).value⟩
      ⟨_, ⟨e, he, rfl⟩, ?_⟩
    exact List.mem_map.mpr ⟨_, List.mem_map.mpr ⟨n, hn, rfl⟩, rfl⟩

/-! ### Uses -/

theorem find?_contains_eq_none {rs : List CheckedRange} {n : Int} :
    rs.find? (·.contains n) = none ↔ ∀ r ∈ rs, r.contains n = false := by
  rw [List.find?_eq_none]
  exact forall₂_congr fun r _ => Bool.not_eq_true _ ▸ Iff.rfl

theorem quiet_checkUnreserved (reserved extensions : List CheckedRange) (number : Int)
    (span : Span) : (checkUnreserved reserved extensions number span).Quiet ↔
      (∀ r ∈ reserved, r.contains number = false) ∧
        ∀ r ∈ extensions, r.contains number = false := by
  rw [← find?_contains_eq_none, ← find?_contains_eq_none]
  unfold checkUnreserved
  cases reserved.find? (·.contains number) with
  | none =>
      cases extensions.find? (·.contains number) with
      | none => simp
      | some r => simp [Diagnostic.isNumbering]
  | some r => simp [Diagnostic.isNumbering]

theorem quiet_checkUnreservedName (reserved : List Ident) (name : Ident) :
    (checkUnreservedName reserved name).Quiet ↔ name.text ∉ reserved.map Ident.text := by
  unfold checkUnreservedName
  rw [List.mem_map]
  cases hfind : reserved.find? (·.text = name.text) with
  | none =>
      have hnone := List.find?_eq_none.mp hfind
      refine ⟨fun _ => ?_, fun _ => quiet_pure _⟩
      rintro ⟨r, hr, htext⟩
      exact hnone r hr (by simpa using htext)
  | some r =>
      have htext : r.text = name.text := by simpa using List.find?_some hfind
      refine ⟨fun h => ?_, fun h => absurd ⟨r, List.mem_of_find?_eq_some hfind, htext⟩ h⟩
      simp [Diagnostic.isNumbering] at h

/-- The numbers that fields have. -/
def presentNumbers (fs : List (Option Int × Field)) : List Int := fs.filterMap Prod.fst

/-- A pass over fields is quiet if their numbers are new and free, and their names are free. -/
theorem quiet_checkFieldNumbers (reservations : Reservations) (extensions : List CheckedRange)
    (fs : List (Option Int × Field)) : ∀ seen : List (Int × Span),
      (checkFieldNumbers reservations extensions seen fs).Quiet ↔
        (presentNumbers fs).Nodup ∧ (∀ n ∈ presentNumbers fs, seen.lookup n = none) ∧
          (∀ n ∈ presentNumbers fs, (∀ r ∈ reservations.ranges, r.contains n = false) ∧
            ∀ r ∈ extensions, r.contains n = false) ∧
          ∀ p ∈ fs, p.2.name.text ∉ reservations.names.map Ident.text := by
  -- On the fields, with the numbers seen so far general: a number found among them is reported.
  induction fs with
  | nil =>
      intro seen
      simp [checkFieldNumbers, presentNumbers]
  | cons p fs ih =>
      intro seen
      obtain ⟨number, f⟩ := p
      cases number with
      | none =>
          have hpresent : presentNumbers ((none, f) :: fs) = presentNumbers fs := rfl
          rw [checkFieldNumbers, quiet_bind, quiet_checkUnreservedName, ih, hpresent]
          simp only [List.forall_mem_cons]
          constructor
          · rintro ⟨hname, hnodup, hseen, hfree, hnames⟩
            exact ⟨hnodup, hseen, hfree, hname, hnames⟩
          · rintro ⟨hnodup, hseen, hfree, hname, hnames⟩
            exact ⟨hname, hnodup, hseen, hfree, hnames⟩
      | some n =>
          have hpresent : presentNumbers ((some n, f) :: fs) = n :: presentNumbers fs := rfl
          rw [hpresent, List.nodup_cons]
          simp only [List.forall_mem_cons, checkFieldNumbers]
          cases hlookup : seen.lookup n with
          | some s => simp [Diagnostic.isNumbering]
          | none =>
              have hnew : (∀ m ∈ presentNumbers fs,
                  List.lookup m ((n, f.number.span) :: seen) = none) ↔
                  n ∉ presentNumbers fs ∧ ∀ m ∈ presentNumbers fs, seen.lookup m = none := by
                simp only [List.lookup_cons]
                grind
              simp only [quiet_bind, true_and, quiet_checkUnreserved, quiet_checkUnreservedName,
                Option.isSome_none, Bool.false_eq_true, if_false, ih,
                hnew]
              grind

/-! ### Fields -/

variable (ctx : Context) (scope : FullName)

/-- The type of a field as it is assembled. -/
def typeOf (f : Field) : Checked FieldType :=
  match f.kind with
  | .plain type _ => ctx.fieldType scope type
  | .map .. => pure (.message (scope.child (mapEntryName f.name.text)))

/-- The default of a field as it is assembled. -/
def defaultOf (f : Field) (label : Label) (type : FieldType) (default : Option OptionSetting) :
    Checked (Option String) :=
  match default with
  | some setting => ctx.defaultValue f.kind label type setting
  | none => pure none

theorem field_eq (f : Field) (label : Label) : ctx.field scope f label = (do
    let number ← f.number.checkFieldNumber
    let type ← typeOf ctx scope f
    let o ← Context.fieldOptions f.options
    let default ← defaultOf ctx f label type o.default
    pure {
      name := f.name.text
      number
      label
      type := some type
      extendee := none
      defaultValue := default
      oneofIndex := none
      jsonName := o.jsonName.getD (jsonName f.name.text)
      options := o.options
      proto3Optional := false }) := by
  obtain ⟨written, kind, name, number, options, span⟩ := f
  refine congrArg (number.checkFieldNumber >>= ·) (funext fun n => ?_)
  cases kind with
  | plain type s =>
      refine congrArg (ctx.fieldType scope type >>= ·) (funext fun type => ?_)
      refine congrArg (Context.fieldOptions options >>= ·) (funext fun o => ?_)
      obtain ⟨own, json, default⟩ := o
      cases default <;> rfl
  | map key keySpan value valueSpan s =>
      refine congrArg (pure _ >>= ·) (funext fun type => ?_)
      refine congrArg (Context.fieldOptions options >>= ·) (funext fun o => ?_)
      obtain ⟨own, json, default⟩ := o
      cases default <;> rfl

theorem name_field (f : Field) (label : Label) :
    (ctx.field scope f label).value.name = f.name.text := by
  rw [field_eq]
  rfl

theorem number_field (f : Field) (label : Label) :
    (ctx.field scope f label).value.number = f.number.checkFieldNumber.value := by
  rw [field_eq]
  rfl

/-- A field is quiet if its number is legal. -/
theorem quiet_field (f : Field) (label : Label) : (ctx.field scope f label).Quiet ↔
    IsFieldNumber (ctx.field scope f label).value.number := by
  have htype : (typeOf ctx scope f).Quiet := by
    unfold typeOf
    split
    · exact quiet_fieldType ctx scope _
    · exact quiet_pure _
  have hdefault : ∀ type default, (defaultOf ctx f label type default).Quiet := by
    intro type default
    unfold defaultOf
    split
    · exact quiet_defaultValue ctx _ _ _ _
    · exact quiet_pure _
  rw [number_field, ← quiet_checkFieldNumber, field_eq]
  simp only [quiet_bind, htype, hdefault, quiet_fieldOptions, quiet_pure, and_true]

theorem quiet_extensions (e : Extend) : (ctx.extensions scope e).Quiet ↔
    ∀ d ∈ (ctx.extensions scope e).value, IsFieldNumber d.number := by
  unfold Context.extensions
  simp only [quiet_bind, quiet_each, quiet_messageType, quiet_checkExtensionLabel, quiet_pure,
    true_and, and_true, value_bind, value_each, value_pure, List.forall_mem_map, quiet_field]

/-! ### Parts of messages -/

/-- The numbers of the fields and extensions among the parts of a message are legal. -/
def PartsNumbered (parts : Context.MessageParts) : Prop :=
  (∀ x ∈ parts.fields, IsFieldNumber x.2.number) ∧ ∀ d ∈ parts.extensions, IsFieldNumber d.number

theorem partsNumbered_append (p q : Context.MessageParts) :
    PartsNumbered (p ++ q) ↔ PartsNumbered p ∧ PartsNumbered q := by
  show (∀ x ∈ p.fields ++ q.fields, _) ∧ (∀ d ∈ p.extensions ++ q.extensions, _) ↔ _
  rw [List.forall_mem_append, List.forall_mem_append]
  exact and_and_and_comm

/-- A field among the parts has the name and the number that its declaration gives it. -/
theorem fields_fieldParts (index : Nat) (f : Field) :
    ∃ d, (ctx.fieldParts scope index f).value.fields = [(f, d)] ∧
      (ctx.fieldParts scope index f).value.extensions = [] ∧
      d.name = f.name.text ∧ d.number = f.number.checkFieldNumber.value := by
  unfold Context.fieldParts
  simp only [value_bind]
  split
  · exact ⟨_, rfl, rfl, name_field ctx scope f _, number_field ctx scope f _⟩
  · exact ⟨_, rfl, rfl, name_field ctx scope f _, number_field ctx scope f _⟩

theorem quiet_fieldParts (index : Nat) (f : Field) :
    (ctx.fieldParts scope index f).Quiet ↔
      PartsNumbered (ctx.fieldParts scope index f).value := by
  obtain ⟨d, hfields, hextensions, -, hnumber⟩ := fields_fieldParts ctx scope index f
  unfold PartsNumbered
  rw [hfields, hextensions, List.forall_mem_singleton, hnumber]
  unfold Context.fieldParts
  simp only [quiet_bind, quiet_mapEntry?, quiet_checkLabel, true_and, quiet_field, number_field]
  split
  · simp
  · simp

theorem fields_oneofParts (index : Nat) (o : Oneof) :
    (ctx.oneofParts scope index o).value.fields = o.fields.map fun f =>
      (f, { (ctx.field scope f f.checkOneofLabel.value).value with oneofIndex := some index }) := by
  unfold Context.oneofParts
  simp only [value_bind, value_each, value_pure]

theorem quiet_oneofParts (index : Nat) (o : Oneof) :
    (ctx.oneofParts scope index o).Quiet ↔
      PartsNumbered (ctx.oneofParts scope index o).value := by
  unfold PartsNumbered
  rw [fields_oneofParts, List.forall_mem_map]
  unfold Context.oneofParts
  simp only [quiet_bind, quiet_each, quiet_pure, quiet_optionsOf, quiet_checkOneofLabel,
    quiet_reportIf, quiet_field, number_field, true_and, and_true]
  refine ⟨fun h => ⟨h.2, fun d hd => absurd hd List.not_mem_nil⟩, fun h => ⟨fun _ => rfl, h.1⟩⟩

end Checked

end ProtoSchema
