/-
What is reported about numbers, and for which declaration.

Diagnostics about numbers are reported for a message or an enum, and the messages and enums
within a message are declarations of their own.  So what is reported for a message itself is
what is reported for it alone, with no other ones in it.  Nothing is lost by this: whatever is
reported about numbers in a file is reported for some message alone, for some enum, or for an
extension outside of all messages.

And what is reported for a message alone says all about the numbers of its descriptor, the one
with everything in it: the parts that are left out have no numbers of their own.
-/
import ProtoSchema.Proofs.Assembly.Reservations
import ProtoSchema.Proofs.Linking.Registered
import ProtoSchema.Proofs.Linking.Types

namespace ProtoSchema

/-! ### Messages alone -/

/-- Whether an item of a message is a declaration with numbers of its own. -/
def MessageItem.isType : MessageItem → Bool
  | .message _ | .enum _ => true
  | _ => false

/-- A message without the messages and enums within it. -/
def Message.alone (m : Message) : Message := { m with items := m.items.filter (!·.isType) }

namespace Context

open Checked

variable (ctx : Context) (scope : FullName)

theorem message_eq (m : Message) : ctx.message scope m = (do
    let parts ← ctx.messageItems (scope.child m.name.text) 0 (m.items.countP isOneof) m.items
    close m.name parts m.options m.reserved m.extensions) := by
  cases m
  rw [message]

/-- A message or an enum among the items is no part of the fields, extensions and oneofs. -/
theorem messageItem_type (oneofIndex presenceIndex : Nat) {i : MessageItem}
    (h : i.isType = true) :
    ∃ nested enums, (ctx.messageItem scope oneofIndex presenceIndex i).value =
      { MessageParts.empty with nested, enums } := by
  cases i with
  | message m => exact ⟨_, _, by rw [messageItem]; rfl⟩
  | enum e => exact ⟨_, _, by rw [messageItem]; rfl⟩
  | field f => cases h
  | oneof o => cases h
  | extend e => cases h

/-- The fields and extensions of a message are those of the message alone. -/
theorem messageItems_filter (items : List MessageItem) : ∀ oneofIndex presenceIndex : Nat,
    (ctx.messageItems scope oneofIndex presenceIndex (items.filter (!·.isType))).value.fields =
        (ctx.messageItems scope oneofIndex presenceIndex items).value.fields ∧
      (ctx.messageItems scope oneofIndex presenceIndex (items.filter (!·.isType))).value.extensions =
        (ctx.messageItems scope oneofIndex presenceIndex items).value.extensions := by
  induction items with
  | nil => intro o p; exact ⟨rfl, rfl⟩
  | cons i is ih =>
      intro o p
      cases h : i.isType with
      | true =>
          obtain ⟨nested, enums, hvalue⟩ := ctx.messageItem_type scope o p h
          rw [List.filter_cons_of_neg (by simp [h])]
          rw [messageItems, value_bind, value_bind, value_pure, hvalue]
          exact ih o p
      | false =>
          rw [List.filter_cons_of_pos (by simp [h])]
          rw [messageItems, messageItems]
          simp only [value_bind, value_pure]
          obtain ⟨hfields, hextensions⟩ := ih
            (o + (ctx.messageItem scope o p i).value.oneofs.length)
            (p + (ctx.messageItem scope o p i).value.presence.length)
          exact ⟨congrArg (_ ++ ·) hfields, congrArg (_ ++ ·) hextensions⟩

/-- The fields among the parts have the names of their declarations. -/
theorem name_messageItems (items : List MessageItem) : ∀ oneofIndex presenceIndex : Nat,
    ∀ x ∈ (ctx.messageItems scope oneofIndex presenceIndex items).value.fields,
      x.2.name = x.1.name.text := by
  induction items with
  | nil => intro o p x hx; cases hx
  | cons i is ih =>
      intro o p x hx
      rw [messageItems] at hx
      simp only [value_bind, value_pure] at hx
      rcases List.mem_append.mp hx with hx | hx
      · cases i with
        | field f =>
            rw [messageItem] at hx
            obtain ⟨d, hfields, -, hname, -⟩ := fields_fieldParts ctx scope p f
            rw [hfields] at hx
            obtain rfl := List.mem_singleton.mp hx
            exact hname
        | oneof o' =>
            rw [messageItem, fields_oneofParts] at hx
            obtain ⟨f, -, rfl⟩ := List.mem_map.mp hx
            exact name_field ctx scope f _
        | message m => rw [messageItem] at hx; cases hx
        | enum e => rw [messageItem] at hx; cases hx
        | extend e => rw [messageItem] at hx; cases hx
      · exact ih _ _ x hx

/-- Items without numbers of their own are quiet if the numbers of their parts are legal. -/
theorem quiet_messageItems (items : List MessageItem) (h : ∀ i ∈ items, i.isType = false) :
    ∀ oneofIndex presenceIndex : Nat,
      (ctx.messageItems scope oneofIndex presenceIndex items).Quiet ↔
        PartsNumbered (ctx.messageItems scope oneofIndex presenceIndex items).value := by
  induction items with
  | nil =>
      intro o p
      rw [messageItems]
      simp [PartsNumbered, MessageParts.empty]
  | cons i is ih =>
      intro o p
      rw [messageItems]
      simp only [quiet_bind, quiet_pure, and_true, value_bind, value_pure]
      rw [partsNumbered_append, ih fun j hj => h j (List.mem_cons_of_mem i hj)]
      refine and_congr_left fun _ => ?_
      cases i with
      | field f => rw [messageItem]; exact quiet_fieldParts ctx scope p f
      | oneof o' => rw [messageItem]; exact quiet_oneofParts ctx scope o o'
      | message m => cases h (.message m) List.mem_cons_self
      | enum e => cases h (.enum e) List.mem_cons_self
      | extend e =>
          rw [messageItem]
          simp only [quiet_bind, quiet_pure, and_true, value_bind, value_pure, quiet_extensions]
          exact (and_iff_right fun x hx => absurd hx List.not_mem_nil).symm

/-! ### Closing a message -/

theorem whole_iff_halfOpen {r : CheckedRange} (h : ∀ b, r.stop = some b → b ≤ maxFieldNumber) :
    r.IsWhole ↔ ∃ start stop, halfOpen r = ⟨some start, some stop⟩ ∧ start < stop ∧
      stop ≤ 536870912 := by
  obtain ⟨start, stop, span⟩ := r
  cases stop with
  | none => simp [CheckedRange.IsWhole, halfOpen]
  | some b =>
      have hb : b ≤ 536870911 := h b rfl
      cases start with
      | none => simp [CheckedRange.IsWhole, halfOpen]
      | some a =>
          constructor
          · rintro ⟨start, stop, hstart, hstop, hle⟩
            obtain rfl : a = start := Option.some.inj hstart
            obtain rfl : b = stop := Option.some.inj hstop
            exact ⟨a, b + 1, rfl, by omega, by omega⟩
          · rintro ⟨start, stop, heq, hlt, -⟩
            obtain ⟨hstart, hstop⟩ := RangeDescriptor.mk.inj heq
            obtain rfl := Option.some.inj hstart
            have hb1 : b + 1 = stop := Option.some.inj hstop
            exact ⟨a, b, rfl, rfl, by omega⟩

theorem not_contains_iff_halfOpen {r : CheckedRange} {n : Int} :
    r.contains n = false ↔ ¬(halfOpen r).ContainsBelow n := by
  obtain ⟨start, stop, span⟩ := r
  cases start with
  | none => simp [CheckedRange.contains, halfOpen, RangeDescriptor.ContainsBelow]
  | some a =>
      cases stop with
      | none => simp [CheckedRange.contains, halfOpen, RangeDescriptor.ContainsBelow]
      | some b =>
          have hbelow : (halfOpen ⟨some a, some b, span⟩).ContainsBelow n ↔ a ≤ n ∧ n < b + 1 := by
            simp [halfOpen, RangeDescriptor.ContainsBelow]
          rw [hbelow, CheckedRange.contains, Bool.and_eq_false_iff, decide_eq_false_iff_not,
            decide_eq_false_iff_not]
          omega

theorem bounds_checkMessage {r : CheckedRange} (n : NumberRange) (h : r = n.checkMessage.value) :
    ∀ b, r.stop = some b → b ≤ maxFieldNumber := by
  intro b hb
  rw [h] at hb
  exact stop_check_le (fun m v hv => (bounds_checkMessageNumber hv).2) n hb

/-- Numbers that are all there are different if they are different where they are there. -/
theorem nodup_presentNumbers {xs : List (Field × FieldDescriptor)}
    (h : ∀ x ∈ xs, IsFieldNumber x.2.number) :
    (presentNumbers (xs.map fun x => (x.2.number, x.1))).Nodup ↔
      (xs.map fun x => x.2.number).Nodup := by
  have hall : xs.map (fun x => x.2.number) =
      (presentNumbers (xs.map fun x => (x.2.number, x.1))).map some := by
    induction xs with
    | nil => rfl
    | cons x xs ih =>
        obtain ⟨n, hn, -⟩ := h x List.mem_cons_self
        have hrest := ih fun y hy => h y (List.mem_cons_of_mem x hy)
        rw [List.map_cons, List.map_cons, hrest, hn]
        rfl
  rw [hall]
  simp only [List.Nodup, List.pairwise_map, ne_eq, Option.some.injEq]

theorem mem_presentNumbers {xs : List (Field × FieldDescriptor)} {n : Int} :
    n ∈ presentNumbers (xs.map fun x => (x.2.number, x.1)) ↔
      ∃ d ∈ xs.map Prod.snd, d.number = some n := by
  unfold presentNumbers
  simp only [List.mem_filterMap, List.mem_map]
  constructor
  · rintro ⟨_, ⟨x, hx, rfl⟩, hn⟩
    exact ⟨x.2, ⟨x, hx, rfl⟩, hn⟩
  · rintro ⟨_, ⟨x, hx, rfl⟩, hn⟩
    exact ⟨_, ⟨x, hx, rfl⟩, hn⟩

/-- The descriptor of a message, from its parts and what it reserves. -/
def closed (name : Ident) (parts : MessageParts) (reservations : Reservations)
    (extensionRanges : List (CheckedRange × Option (Options NoOption)))
    (options : Option (Options MessageOption)) : MessageDescriptor where
  name := name.text
  fields := parts.fields.map Prod.snd
  extensions := parts.extensions
  nested := parts.nested
  enums := parts.enums
  extensionRanges := extensionRanges.map fun (r, o) => ⟨halfOpen r, o⟩
  oneofs := parts.oneofs ++ parts.presence
  options
  reservedRanges := reservations.ranges.map halfOpen
  reservedNames := reservations.names.map Ident.text

section Closed

variable {name : Ident} {parts : MessageParts} {reservations : Reservations}
  {extensionRanges : List (CheckedRange × Option (Options NoOption))}
  {options : Option (Options MessageOption)}

/-- What the checks of a message compare is what its descriptor shows. -/
theorem isNumbered_closed_iff (hnames : ∀ x ∈ parts.fields, x.2.name = x.1.name.text)
    (hreserved : ∀ r ∈ reservations.ranges, ∀ b, r.stop = some b → b ≤ maxFieldNumber)
    (hextensible : ∀ p ∈ extensionRanges, ∀ b, p.1.stop = some b → b ≤ maxFieldNumber) :
    (closed name parts reservations extensionRanges options).IsNumbered ↔
      PartsNumbered parts ∧ (∀ r ∈ reservations.ranges, r.IsWhole) ∧
        (∀ p ∈ extensionRanges, p.1.IsWhole) ∧
        (checkFieldNumbers reservations (extensionRanges.map Prod.fst) []
          (parts.fields.map fun x => (x.2.number, x.1))).Quiet := by
  -- The checks run over the numbers that are present, and the descriptor has the same numbers.
  rw [quiet_checkFieldNumbers]
  constructor
  · intro hd
    have hparts : PartsNumbered parts :=
      ⟨fun x hx => hd.numbers x.2 (List.mem_map.mpr ⟨x, hx, rfl⟩), hd.extensions⟩
    obtain ⟨hreservedRanges, hextensionRanges⟩ := List.forall_mem_append.mp hd.ranges
    refine ⟨hparts, fun r hr => ?_, fun p hp => ?_, ?_, fun n _ => rfl, fun n hn => ?_,
      fun x hx => ?_⟩
    · exact (whole_iff_halfOpen (hreserved r hr)).mpr
        (hreservedRanges _ (List.mem_map.mpr ⟨r, hr, rfl⟩))
    · refine (whole_iff_halfOpen (hextensible p hp)).mpr (hextensionRanges _ ?_)
      exact List.mem_map.mpr ⟨_, List.mem_map.mpr ⟨p, hp, rfl⟩, rfl⟩
    · have hdistinct := hd.distinct
      simp only [closed, List.map_map] at hdistinct
      exact (nodup_presentNumbers hparts.1).mpr hdistinct
    · obtain ⟨f, hf, hnumber⟩ := mem_presentNumbers.mp hn
      refine ⟨fun r hr => ?_, fun r hr => ?_⟩
      · exact not_contains_iff_halfOpen.mpr
          (hd.reserved f hf n hnumber _ (List.mem_map.mpr ⟨r, hr, rfl⟩))
      · obtain ⟨p, hp, rfl⟩ := List.mem_map.mp hr
        exact not_contains_iff_halfOpen.mpr
          (hd.extensible f hf n hnumber _ (List.mem_map.mpr ⟨p, hp, rfl⟩))
    · obtain ⟨y, hy, rfl⟩ := List.mem_map.mp hx
      have hfree := hd.names y.2 (List.mem_map.mpr ⟨y, hy, rfl⟩)
      rw [hnames y hy] at hfree
      exact hfree
  · rintro ⟨hparts, hreservedWhole, hextensionWhole, hnodup, -, hfree, hname⟩
    have hpresent : ∀ f ∈ parts.fields.map Prod.snd, ∀ n, f.number = some n →
        n ∈ presentNumbers (parts.fields.map fun x => (x.2.number, x.1)) :=
      fun f hf n hn => mem_presentNumbers.mpr ⟨f, hf, hn⟩
    constructor
    · exact List.forall_mem_map.mpr hparts.1
    · simp only [closed, List.map_map]
      exact (nodup_presentNumbers hparts.1).mp hnodup
    · intro f hf n hn r hr
      obtain ⟨c, hc, rfl⟩ := List.mem_map.mp hr
      exact not_contains_iff_halfOpen.mp ((hfree n (hpresent f hf n hn)).1 c hc)
    · intro f hf n hn r hr
      obtain ⟨p, hp, rfl⟩ := List.mem_map.mp hr
      exact not_contains_iff_halfOpen.mp
        ((hfree n (hpresent f hf n hn)).2 p.1 (List.mem_map.mpr ⟨p, hp, rfl⟩))
    · intro f hf
      obtain ⟨x, hx, rfl⟩ := List.mem_map.mp hf
      rw [hnames x hx]
      exact hname _ (List.mem_map.mpr ⟨x, hx, rfl⟩)
    · refine List.forall_mem_append.mpr ⟨?_, ?_⟩
      · intro r hr
        obtain ⟨c, hc, rfl⟩ := List.mem_map.mp hr
        exact (whole_iff_halfOpen (hreserved c hc)).mp (hreservedWhole c hc)
      · intro r hr
        obtain ⟨e, he, rfl⟩ := List.mem_map.mp hr
        obtain ⟨p, hp, rfl⟩ := List.mem_map.mp he
        exact (whole_iff_halfOpen (hextensible p hp)).mp (hextensionWhole p hp)
    · exact hparts.2

end Closed

theorem bounds_reserved {rs : List Reserved} :
    ∀ r ∈ (Reserved.check NumberRange.checkMessage rs).value.ranges,
      ∀ b, r.stop = some b → b ≤ maxFieldNumber := by
  intro r hr
  obtain ⟨n, hn⟩ := mem_reserved hr
  exact bounds_checkMessage n hn

theorem bounds_extensionRanges {es : List Extensions} :
    ∀ p ∈ (each extensionRanges es).value.flatten, ∀ b, p.1.stop = some b → b ≤ maxFieldNumber := by
  intro p hp
  rw [value_each] at hp
  obtain ⟨_, hmem, hp⟩ := List.mem_flatten.mp hp
  obtain ⟨e, -, rfl⟩ := List.mem_map.mp hmem
  unfold extensionRanges at hp
  simp only [value_bind, value_each, value_pure, List.mem_map] at hp
  obtain ⟨_, ⟨n, -, rfl⟩, rfl⟩ := hp
  exact bounds_checkMessage n rfl

/-- Closing a message is quiet if its numbers are in order, given that those of its parts are. -/
theorem quiet_close (name : Ident) {parts : MessageParts} (options : List OptionStatement)
    (reserved : List Reserved) (extensions : List Extensions)
    (hnames : ∀ x ∈ parts.fields, x.2.name = x.1.name.text) :
    (PartsNumbered parts ∧ (close name parts options reserved extensions).Quiet) ↔
      (close name parts options reserved extensions).value.IsNumbered := by
  refine Iff.trans ?_ (isNumbered_closed_iff hnames bounds_reserved bounds_extensionRanges).symm
  unfold close
  simp only [quiet_bind, quiet_pure, quiet_optionsOf, and_true, quiet_reserved quiet_checkMessage,
    quiet_extensionRanges]

/-- Of the parts of a message, only the fields matter for what closing it reports. -/
theorem diagnostics_close {p q : MessageParts} (h : p.fields = q.fields) (name : Ident)
    (options : List OptionStatement) (reserved : List Reserved) (extensions : List Extensions) :
    (close name p options reserved extensions).diagnostics =
      (close name q options reserved extensions).diagnostics := by
  unfold close
  simp only [diagnostics_bind, diagnostics_pure, h]

theorem countP_alone (items : List MessageItem) :
    (items.filter (!·.isType)).countP isOneof = items.countP isOneof := by
  rw [List.countP_filter]
  refine List.countP_congr fun i _ => ?_
  cases i <;> simp [isOneof, MessageItem.isType]

/-- **A message alone is quiet about numbers if its descriptor is numbered.** -/
theorem quiet_alone (m : Message) :
    (ctx.message scope m.alone).Quiet ↔ (ctx.message scope m).value.IsNumbered := by
  have hitems : ∀ i ∈ m.alone.items, i.isType = false := by
    intro i hi
    simpa using (List.mem_filter.mp hi).2
  obtain ⟨hfields, hextensions⟩ := ctx.messageItems_filter (scope.child m.name.text) m.items 0
    (m.items.countP isOneof)
  rw [message_eq, message_eq, quiet_bind, value_bind,
    quiet_messageItems ctx _ _ hitems,
    ← quiet_close _ _ _ _ (ctx.name_messageItems _ m.items 0 _)]
  simp only [Message.alone, countP_alone, PartsNumbered, hfields, hextensions]
  refine and_congr_right fun _ => ?_
  unfold Quiet
  rw [diagnostics_close hfields]

/-! ### Enums -/

theorem zip_map_self {α β : Type} (f : α → β) (as : List α) :
    (as.map f).zip as = as.map fun a => (f a, a) := by
  induction as with
  | nil => rfl
  | cons a as ih => rw [List.map_cons, List.zip_cons_cons, ih, List.map_cons]

/-- A range as an enum shows it, with both ends included. -/
def inclusive (r : CheckedRange) : RangeDescriptor := ⟨r.start, r.stop⟩

theorem whole_iff_inclusive {r : CheckedRange} :
    r.IsWhole ↔ ∃ start stop, inclusive r = ⟨some start, some stop⟩ ∧ start ≤ stop := by
  simp [CheckedRange.IsWhole, inclusive, and_assoc]

theorem not_contains_iff_inclusive {r : CheckedRange} {n : Int} :
    r.contains n = false ↔ ¬(inclusive r).ContainsThrough n := by
  obtain ⟨start, stop, span⟩ := r
  cases start with
  | none => simp [CheckedRange.contains, inclusive, RangeDescriptor.ContainsThrough]
  | some a =>
      cases stop with
      | none => simp [CheckedRange.contains, inclusive, RangeDescriptor.ContainsThrough]
      | some b => simp [CheckedRange.contains, inclusive, RangeDescriptor.ContainsThrough]

/-- Reports a value of an enum whose number or name is reserved. -/
def checkValue (reservations : Reservations) (v : EnumValue) : Checked Unit := do
  match v.number.checkEnumNumber.value with
  | some n => checkUnreserved reservations.ranges [] n v.number.span
  | none => pure ()
  checkUnreservedName reservations.names v.name

theorem quiet_checkValue (reservations : Reservations) (v : EnumValue) :
    (checkValue reservations v).Quiet ↔
      (∀ n, v.number.checkEnumNumber.value = some n →
        ∀ r ∈ reservations.ranges, r.contains n = false) ∧
      v.name.text ∉ reservations.names.map Ident.text := by
  unfold checkValue
  cases v.number.checkEnumNumber.value with
  | none => simp [quiet_checkUnreservedName]
  | some n => simp [quiet_checkUnreserved, quiet_checkUnreservedName]

/-- The diagnostics about an enum: of its numbers, of its ranges, and of their use. -/
theorem quiet_enum_iff (e : Enum) : (ctx.enum e).Quiet ↔
    (∀ v ∈ e.values, v.number.checkEnumNumber.value.isSome = true) ∧
      (∀ r ∈ (Reserved.check NumberRange.checkEnum e.reserved).value.ranges, r.IsWhole) ∧
      ∀ v ∈ e.values,
        (checkValue (Reserved.check NumberRange.checkEnum e.reserved).value v).Quiet := by
  unfold enum enumValue
  simp only [quiet_bind, quiet_each, quiet_pure, quiet_optionsOf, quiet_checkFirstValue,
    quiet_reserved quiet_checkEnum, quiet_checkEnumNumber, true_and, and_true, value_bind,
    value_each, value_pure, zip_map_self, List.forall_mem_map]
  rfl

/-- **An enum is quiet about numbers if its descriptor is numbered.** -/
theorem quiet_enum (e : Enum) : (ctx.enum e).Quiet ↔ (ctx.enum e).value.IsNumbered := by
  have hvalues : (ctx.enum e).value.values = e.values.map fun v =>
      ⟨v.name.text, v.number.checkEnumNumber.value,
        (optionsOf (OptionList.settingsOf v.options)).value⟩ := by
    unfold enum enumValue
    simp only [value_bind, value_each, value_pure]
  have hranges : (ctx.enum e).value.reservedRanges =
      (Reserved.check NumberRange.checkEnum e.reserved).value.ranges.map inclusive := rfl
  have hnames : (ctx.enum e).value.reservedNames =
      (Reserved.check NumberRange.checkEnum e.reserved).value.names.map Ident.text := rfl
  -- Quietness speaks of the source; the values and ranges above carry it over to the descriptor.
  rw [quiet_enum_iff]
  simp only [quiet_checkValue]
  constructor
  · rintro ⟨hnumbers, hwhole, hfree⟩
    constructor
    · rw [hvalues, List.forall_mem_map]
      intro v hv
      obtain ⟨n, hn⟩ := Option.isSome_iff_exists.mp (hnumbers v hv)
      exact ⟨n, hn, bounds_checkEnumNumber hn⟩
    · rw [hvalues, List.forall_mem_map, hranges]
      intro v hv n hn
      rw [List.forall_mem_map]
      exact fun r hr => not_contains_iff_inclusive.mp ((hfree v hv).1 n hn r hr)
    · rw [hvalues, List.forall_mem_map, hnames]
      exact fun v hv => (hfree v hv).2
    · rw [hranges, List.forall_mem_map]
      exact fun r hr => whole_iff_inclusive.mp (hwhole r hr)
  · intro hd
    have hd1 := hd.numbers
    have hd2 := hd.reserved
    have hd3 := hd.names
    have hd4 := hd.ranges
    rw [hvalues, List.forall_mem_map] at hd1 hd2 hd3
    rw [hranges] at hd2 hd4
    rw [hnames] at hd3
    rw [List.forall_mem_map] at hd4
    refine ⟨fun v hv => ?_, fun r hr => whole_iff_inclusive.mpr (hd4 r hr),
      fun v hv => ⟨?_, hd3 v hv⟩⟩
    · obtain ⟨n, hn, -⟩ := hd1 v hv
      exact Option.isSome_of_eq_some hn
    · intro n hn r hr
      exact not_contains_iff_inclusive.mpr (hd2 v hv n hn _ (List.mem_map.mpr ⟨r, hr, rfl⟩))

/-! ### What is reported of a message with everything in it -/

/-- Where a message or an enum stands among the items does not matter. -/
theorem messageItem_index (o p : Nat) {i : MessageItem} (h : i.isType = true) :
    ctx.messageItem scope o p i = ctx.messageItem scope 0 0 i := by
  cases i with
  | message m => rw [messageItem, messageItem]
  | enum e => rw [messageItem, messageItem]
  | field f => cases h
  | oneof o => cases h
  | extend e => cases h

theorem mem_messageItems {x : Diagnostic} (items : List MessageItem) :
    ∀ o p : Nat, x ∈ (ctx.messageItems scope o p items).diagnostics ↔
      x ∈ (ctx.messageItems scope o p (items.filter (!·.isType))).diagnostics ∨
        ∃ i ∈ items, i.isType = true ∧ x ∈ (ctx.messageItem scope 0 0 i).diagnostics := by
  induction items with
  | nil => intro o p; simp [messageItems]
  | cons i is ih =>
      intro o p
      cases h : i.isType with
      | true =>
          obtain ⟨nested, enums, hvalue⟩ := ctx.messageItem_type scope o p h
          have hindex : (ctx.messageItem scope o p i).diagnostics =
              (ctx.messageItem scope 0 0 i).diagnostics := by rw [ctx.messageItem_index scope o p h]
          rw [List.filter_cons_of_neg (by simp [h]), messageItems]
          simp only [diagnostics_bind, diagnostics_pure, List.append_nil, List.mem_append, hvalue,
            hindex, List.mem_cons, exists_eq_or_imp, h, true_and]
          rw [show MessageParts.empty.oneofs.length = 0 from rfl,
            show MessageParts.empty.presence.length = 0 from rfl, Nat.add_zero, Nat.add_zero, ih]
          exact or_left_comm
      | false =>
          rw [List.filter_cons_of_pos (by simp [h]), messageItems, messageItems]
          simp only [diagnostics_bind, diagnostics_pure, List.append_nil, List.mem_append, ih,
            List.mem_cons, exists_eq_or_imp, h, Bool.false_eq_true, false_and, false_or]
          exact or_assoc.symm

/-- What is reported of a message is reported of it alone, or of what is in it. -/
theorem mem_message {x : Diagnostic} (m : Message) :
    x ∈ (ctx.message scope m).diagnostics ↔ x ∈ (ctx.message scope m.alone).diagnostics ∨
      ∃ i ∈ m.items, i.isType = true ∧
        x ∈ (ctx.messageItem (scope.child m.name.text) 0 0 i).diagnostics := by
  have hfields := (ctx.messageItems_filter (scope.child m.name.text) m.items 0
    (m.items.countP isOneof)).1
  rw [message_eq, message_eq]
  simp only [diagnostics_bind, List.mem_append, Message.alone, countP_alone,
    ctx.mem_messageItems _ m.items, diagnostics_close hfields]
  exact or_right_comm

/-! ### Where descriptors stand -/

theorem nested_messageItems {m : Message} (items : List MessageItem)
    (h : MessageItem.message m ∈ items) : ∀ o p : Nat,
      (ctx.message scope m).value ∈ (ctx.messageItems scope o p items).value.nested := by
  induction items with
  | nil => cases h
  | cons i is ih =>
      intro o p
      rw [messageItems]
      simp only [value_bind, value_pure]
      refine List.mem_append.mpr ?_
      rcases List.mem_cons.mp h with rfl | hmem
      · rw [messageItem]
        exact Or.inl (List.mem_singleton.mpr rfl)
      · exact Or.inr (ih hmem _ _)

theorem enums_messageItems {e : Enum} (items : List MessageItem)
    (h : MessageItem.enum e ∈ items) : ∀ o p : Nat,
      (ctx.enum e).value ∈ (ctx.messageItems scope o p items).value.enums := by
  induction items with
  | nil => cases h
  | cons i is ih =>
      intro o p
      rw [messageItems]
      simp only [value_bind, value_pure]
      refine List.mem_append.mpr ?_
      rcases List.mem_cons.mp h with rfl | hmem
      · rw [messageItem]
        exact Or.inl (List.mem_singleton.mpr rfl)
      · exact Or.inr (ih hmem _ _)

theorem name_message (m : Message) : (ctx.message scope m).value.name = m.name.text := by
  rw [message_eq]
  rfl

theorem nested_message {m inner : Message} (h : MessageItem.message inner ∈ m.items) :
    (ctx.message (scope.child m.name.text) inner).value ∈ (ctx.message scope m).value.nested := by
  rw [message_eq ctx scope m]
  exact ctx.nested_messageItems _ m.items h 0 _

theorem enums_message {m : Message} {e : Enum} (h : MessageItem.enum e ∈ m.items) :
    (ctx.enum e).value ∈ (ctx.message scope m).value.enums := by
  rw [message_eq ctx scope m]
  exact ctx.enums_messageItems (scope.child m.name.text) m.items h 0 _

end Context

namespace MessageDescriptor

mutual

/-- A walk over a message goes on with what is nested in the messages that it comes by. -/
theorem walk_nested (scope : FullName) : (m : MessageDescriptor) → ∀ p ∈ m.walk scope,
    ∀ q ∈ walkAll p.1 p.2.nested, q ∈ m.walk scope
  | ⟨name, fields, extensions, nested, enums, ranges, oneofs, options, reserved, names⟩ => by
      intro p hp q hq
      rw [walk] at hp ⊢
      rcases List.mem_cons.mp hp with rfl | hp
      · exact List.mem_cons_of_mem _ hq
      · exact List.mem_cons_of_mem _ (walkAll_nested (scope.child name) nested p hp q hq)

theorem walkAll_nested (scope : FullName) : (ms : List MessageDescriptor) →
    ∀ p ∈ walkAll scope ms, ∀ q ∈ walkAll p.1 p.2.nested, q ∈ walkAll scope ms
  | [] => fun p hp => absurd hp List.not_mem_nil
  | m :: ms => by
      intro p hp q hq
      rw [walkAll] at hp ⊢
      rcases List.mem_append.mp hp with hp | hp
      · exact List.mem_append_left _ (walk_nested scope m p hp q hq)
      · exact List.mem_append_right _ (walkAll_nested scope ms p hp q hq)

end

theorem mem_walkAll {scope : FullName} {m : MessageDescriptor} {ms : List MessageDescriptor}
    (h : m ∈ ms) : (scope.child m.name, m) ∈ walkAll scope ms := by
  rw [walkAll_eq, List.mem_flatMap]
  exact ⟨m, h, by rw [walk_eq]; exact List.mem_cons_self⟩

end MessageDescriptor

/-! ### Files -/

/-- The file has a message of this descriptor, at some depth, under a full name. -/
def FileDescriptor.HasMessage (d : FileDescriptor) (name : FullName) (m : MessageDescriptor) :
    Prop :=
  (name, m) ∈ MessageDescriptor.walkAll d.scope d.messages

/-- The file has an enum of this descriptor, on its own or in the message that is its scope. -/
def FileDescriptor.HasEnum (d : FileDescriptor) (scope : FullName) (e : EnumDescriptor) : Prop :=
  (scope = d.scope ∧ e ∈ d.enums) ∨ ∃ m, d.HasMessage scope m ∧ e ∈ m.enums

namespace File

open Context

variable {file : File} {name : String} {symbols : SymbolTable} {scope : FullName}
  {x : Diagnostic}

/-- A diagnostic is reported of a message alone, or of an enum, that the file holds. -/
def ReportsOfType (file : File) (ctx : Context) (x : Diagnostic) : Prop :=
  (∃ scope m, file.Holds scope (.message m) ∧ x ∈ (ctx.message scope m.alone).diagnostics) ∨
    ∃ scope e, file.Holds scope (.enum e) ∧ x ∈ (ctx.enum e).diagnostics

mutual

theorem reportsOfType_message (ctx : Context) (scope : FullName) :
    (m : Message) → file.Holds scope (.message m) →
      ∀ x ∈ (ctx.message scope m).diagnostics, file.ReportsOfType ctx x
  | ⟨name, items, options, reserved, extensions, span⟩ => by
      intro h x hx
      rcases (ctx.mem_message scope _).mp hx with halone | hinner
      · exact Or.inl ⟨scope, _, h, halone⟩
      · exact reportsOfType_items ctx (scope.child name.text) items
          (fun i hi => .within h hi) x hinner

theorem reportsOfType_items (ctx : Context) (scope : FullName) :
    (items : List MessageItem) → (∀ i ∈ items, file.Holds scope i) → ∀ x,
      (∃ i ∈ items, i.isType = true ∧ x ∈ (ctx.messageItem scope 0 0 i).diagnostics) →
        file.ReportsOfType ctx x
  | [] => fun _ _ ⟨_, hi, _⟩ => absurd hi List.not_mem_nil
  | i :: is => by
      rintro h x ⟨j, hj, htype, hx⟩
      rcases List.mem_cons.mp hj with heq | hmem
      · rw [heq] at htype hx
        exact reportsOfType_item ctx scope i (h i List.mem_cons_self) htype x hx
      · exact reportsOfType_items ctx scope is (fun k hk => h k (List.mem_cons_of_mem i hk)) x
          ⟨j, hmem, htype, hx⟩

theorem reportsOfType_item (ctx : Context) (scope : FullName) :
    (i : MessageItem) → file.Holds scope i → i.isType = true →
      ∀ x ∈ (ctx.messageItem scope 0 0 i).diagnostics, file.ReportsOfType ctx x
  | .message m => by
      intro h _ x hx
      rw [messageItem, Checked.diagnostics_bind, Checked.diagnostics_pure, List.append_nil] at hx
      exact reportsOfType_message ctx scope m h x hx
  | .enum e => by
      intro h _ x hx
      rw [messageItem, Checked.diagnostics_bind, Checked.diagnostics_pure, List.append_nil] at hx
      exact Or.inr ⟨scope, e, h, hx⟩
  | .field _ => fun _ h => by cases h
  | .oneof _ => fun _ h => by cases h
  | .extend _ => fun _ h => by cases h

end

/-- What is reported of a held message or enum is reported of the file. -/
theorem Holds.mem_describe {item : MessageItem} (h : file.Holds scope item)
    (htype : item.isType = true)
    (hx : x ∈ ((file.context symbols).messageItem scope 0 0 item).diagnostics) :
    x ∈ (file.describe name symbols).diagnostics := by
  induction h with
  | message hm =>
      rw [messageItem, Checked.diagnostics_bind, Checked.diagnostics_pure, List.append_nil] at hx
      unfold File.describe
      simp only [Checked.diagnostics_bind, Checked.diagnostics_each, List.mem_append,
        List.mem_flatMap]
      exact Or.inl ⟨_, hm, hx⟩
  | enum he =>
      rw [messageItem, Checked.diagnostics_bind, Checked.diagnostics_pure, List.append_nil] at hx
      unfold File.describe
      simp only [Checked.diagnostics_bind, Checked.diagnostics_each, List.mem_append,
        List.mem_flatMap]
      exact Or.inr (Or.inl ⟨_, he, hx⟩)
  | extend he => cases htype
  | @within scope m item _ hitem ih =>
      refine ih rfl ?_
      rw [messageItem, Checked.diagnostics_bind, Checked.diagnostics_pure, List.append_nil,
        mem_message]
      exact Or.inr ⟨item, hitem, htype, hx⟩

/-- Whatever is reported about numbers in a file is reported for one of its declarations. -/
theorem mem_describe_iff (hx : x.isNumbering = true) :
    x ∈ (file.describe name symbols).diagnostics ↔
      file.ReportsOfType (file.context symbols) x ∨ ∃ e ∈ file.extendBlocks,
        x ∈ ((file.context symbols).extensions (Package.scope file.package) e).diagnostics := by
  -- Services and options have no numbers to check, so no such report is from them.
  have hloud : ∀ {α : Type} {c : Checked α}, c.Quiet → x ∉ c.diagnostics := by
    intro α c hquiet hmem
    rw [hquiet x hmem] at hx
    cases hx
  constructor
  · intro h
    unfold File.describe at h
    simp only [Checked.diagnostics_bind, Checked.diagnostics_each, Checked.diagnostics_pure,
      List.append_nil, List.mem_append, List.mem_flatMap] at h
    rcases h with ⟨m, hm, h⟩ | ⟨e, he, h⟩ | ⟨e, he, h⟩ | ⟨s, -, h⟩ | h
    · exact Or.inl (reportsOfType_message _ _ m (.message hm) x h)
    · exact Or.inl (Or.inr ⟨_, e, .enum he, h⟩)
    · exact Or.inr ⟨e, he, h⟩
    · exact absurd h (hloud (Checked.quiet_service _ _ s))
    · exact absurd h (hloud (Checked.quiet_optionsOf _))
  · rintro ((⟨scope, m, hm, h⟩ | ⟨scope, e, he, h⟩) | ⟨e, he, h⟩)
    · refine hm.mem_describe rfl ?_
      rw [messageItem, Checked.diagnostics_bind, Checked.diagnostics_pure, List.append_nil]
      exact (mem_message _ scope m).mpr (Or.inl h)
    · refine he.mem_describe rfl ?_
      rw [messageItem, Checked.diagnostics_bind, Checked.diagnostics_pure, List.append_nil]
      exact h
    · unfold File.describe
      simp only [Checked.diagnostics_bind, Checked.diagnostics_each, List.mem_append,
        List.mem_flatMap]
      exact Or.inr (Or.inr (Or.inl ⟨e, he, h⟩))

theorem messages_describe (file : File) (name : String) (symbols : SymbolTable) :
    (file.describe name symbols).value.messages = file.messages.map fun m =>
      ((file.context symbols).message (Package.scope file.package) m).value := by
  unfold File.describe
  simp only [Checked.value_bind, Checked.value_each, Checked.value_pure]

/-- The descriptor of a held message stands in that of the file, under its full name. -/
theorem Holds.hasMessage {m : Message} (h : file.Holds scope (.message m)) :
    (file.describe name symbols).value.HasMessage (scope.child m.name.text)
      ((file.context symbols).message scope m).value := by
  unfold FileDescriptor.HasMessage
  rw [scope_describe, messages_describe]
  generalize hitem : MessageItem.message m = item at h
  induction h generalizing m with
  | @message m' hm =>
      obtain rfl : m = m' := MessageItem.message.inj hitem
      rw [← name_message (file.context symbols) (Package.scope file.package) m]
      exact MessageDescriptor.mem_walkAll (List.mem_map.mpr ⟨m, hm, rfl⟩)
  | enum he => cases hitem
  | extend he => cases hitem
  | @within scope outer item _ hmem ih =>
      have hnested := (file.context symbols).nested_message scope (hitem ▸ hmem)
      rw [← name_message (file.context symbols) (scope.child outer.name.text) m]
      exact MessageDescriptor.walkAll_nested _ _ _ (ih rfl) _
        (MessageDescriptor.mem_walkAll hnested)

/-- So does that of a held enum, in its scope. -/
theorem Holds.hasEnum {e : Enum} (h : file.Holds scope (.enum e)) :
    (file.describe name symbols).value.HasEnum scope ((file.context symbols).enum e).value := by
  cases h with
  | enum he =>
      refine Or.inl ⟨(scope_describe file name symbols).symm, ?_⟩
      unfold File.describe
      simp only [Checked.value_bind, Checked.value_each, Checked.value_pure]
      exact List.mem_map.mpr ⟨e, he, rfl⟩
  | within houter hmem =>
      exact Or.inr ⟨_, houter.hasMessage, (file.context symbols).enums_message _ hmem⟩

/--
**Numbers and reservations are enforced exactly.**  For every message and every enum that a
file holds, at any depth, nothing is reported about numbers exactly if its descriptor, which
stands in that of the file, has its numbers in order.  All that is reported about numbers is
reported for one of them, or for an extension that no message holds.
-/
theorem numbers_enforced (file : File) (name : String) (symbols : SymbolTable) :
    (∀ scope m, file.Holds scope (.message m) →
      (file.describe name symbols).value.HasMessage (scope.child m.name.text)
          ((file.context symbols).message scope m).value ∧
        (((file.context symbols).message scope m.alone).Quiet ↔
          ((file.context symbols).message scope m).value.IsNumbered)) ∧
    (∀ scope e, file.Holds scope (.enum e) →
      (file.describe name symbols).value.HasEnum scope ((file.context symbols).enum e).value ∧
        (((file.context symbols).enum e).Quiet ↔
          ((file.context symbols).enum e).value.IsNumbered)) ∧
    (∀ x : Diagnostic, x.isNumbering = true →
      (x ∈ (file.describe name symbols).diagnostics ↔
        (∃ scope m, file.Holds scope (.message m) ∧
          x ∈ ((file.context symbols).message scope m.alone).diagnostics) ∨
        (∃ scope e, file.Holds scope (.enum e) ∧
          x ∈ ((file.context symbols).enum e).diagnostics) ∨
        ∃ e ∈ file.extendBlocks, x ∈ ((file.context symbols).extensions
          (Package.scope file.package) e).diagnostics)) := by
  refine ⟨fun scope m h => ⟨h.hasMessage, quiet_alone _ scope m⟩,
    fun scope e h => ⟨h.hasEnum, quiet_enum _ e⟩, fun x hx => ?_⟩
  rw [mem_describe_iff hx, ReportsOfType, or_assoc]

/-- The file of one message, which uses a number that it reserves. -/
def reusing : File :=
  let s := Span.point 0
  { File.empty with
    messages := [⟨⟨"Reusing", s⟩,
      [.field ⟨none, .plain (.scalar .int32) s, ⟨"number", s⟩, ⟨false, 4, s⟩, none, s⟩], [],
      [⟨.ranges [⟨⟨false, 2, s⟩, .to ⟨false, 4, s⟩⟩], s⟩], [], s⟩] }

/-- The end of a reserved range is reserved. -/
theorem numbers_enforced_reusing : ∀ m ∈ reusing.messages,
    reusing.Holds .root (.message m) ∧
      ¬((reusing.context .empty).message .root m).value.IsNumbered := by
  intro m hm
  have hexact := (numbers_enforced reusing "reusing.proto" .empty).1 .root m (.message hm)
  refine ⟨.message hm, fun hnumbered => ?_⟩
  have hloud : ∀ m ∈ reusing.messages,
      ¬((reusing.context .empty).message .root m.alone).Quiet := by decide +kernel
  exact hloud m hm (hexact.2.mpr hnumbered)

end File

end ProtoSchema
