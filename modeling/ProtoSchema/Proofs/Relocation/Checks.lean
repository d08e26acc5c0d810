/-
Checking trees at other places.

Two checks of the same declarations can differ in where these stand, and in whether a reference
to something that the file does not declare is reported.  A `Change` says how the second check
differs from the first.  `Checked.told` is the account of a check after a change: its value as
seen in the second check, and its diagnostics without those that the change silences, at their
new places.

Each check commutes with a change: checking what was moved is the changed account of checking.
This module shows so for the checks that look at one thing only, a number, a value, or a list of
options or reservations; none of them can report a reference.
-/
import ProtoSchema.Proofs.Assembly.Reservations
import ProtoSchema.Proofs.Relocation.Descriptors

namespace ProtoSchema

open Checked

/-! ### Changes -/

/-- Whether a diagnostic is about a reference to something that is not declared. -/
def Diagnostic.isUnresolved : Diagnostic → Bool
  | unresolvedType .. => true
  | _ => false

/-- How one check differs from another. -/
structure Change where
  /-- Where things stand. -/
  relocation : Relocation
  /-- Whether references to something that is not declared are no longer reported. -/
  silences : Bool
  keepsText : relocation.KeepsText

namespace Change

/-- Whether a diagnostic is reported after a change. -/
def keeps (ch : Change) (d : Diagnostic) : Bool := !(ch.silences && d.isUnresolved)

/-- What is reported after a change. -/
def diagnostics (ch : Change) (ds : List Diagnostic) : List Diagnostic :=
  (ds.filter ch.keeps).map (Diagnostic.moved ch.relocation)

@[simp] theorem diagnostics_nil (ch : Change) : ch.diagnostics [] = [] := rfl

@[simp] theorem diagnostics_append (ch : Change) (ds es : List Diagnostic) :
    ch.diagnostics (ds ++ es) = ch.diagnostics ds ++ ch.diagnostics es := by
  rw [diagnostics, List.filter_append, List.map_append, diagnostics, diagnostics]

theorem diagnostics_of_resolved (ch : Change) {d : Diagnostic} (h : d.isUnresolved = false) :
    ch.diagnostics [d] = [d.moved ch.relocation] := by
  simp [diagnostics, keeps, h]

end Change

namespace Checked

variable {α β γ δ : Type} {ch : Change}

/-- The account of a check after a change. -/
def told (ch : Change) (look : α → β) (c : Checked α) : Checked β :=
  ⟨look c.value, ch.diagnostics c.diagnostics⟩

@[simp] theorem told_pure (look : α → β) (a : α) :
    (pure a : Checked α).told ch look = pure (look a) := rfl

theorem report_changed (ch : Change) (d : Diagnostic) (h : d.isUnresolved = false) :
    report (d.moved ch.relocation) = (report d).told ch id :=
  ext rfl (ch.diagnostics_of_resolved h).symm

theorem reportIf_changed (ch : Change) (b : Bool) (d : Diagnostic) (h : d.isUnresolved = false) :
    reportIf b (d.moved ch.relocation) = (reportIf b d).told ch id := by
  cases b with
  | false => rfl
  | true => exact report_changed ch d h

/-- A step and what follows it are told one after the other. -/
theorem told_bind {l : α → γ} {k : β → δ} {c : Checked α} {c' : Checked γ}
    {f : α → Checked β} {f' : γ → Checked δ} (hc : c' = c.told ch l)
    (hf : ∀ a, f' (l a) = (f a).told ch k) : c' >>= f' = (c >>= f).told ch k := by
  subst hc
  refine ext ?_ ?_
  · exact congrArg (·.value) (hf c.value)
  · rw [diagnostics_bind, told, told, diagnostics_bind, ch.diagnostics_append]
    exact congrArg (fun d : Checked δ => _ ++ d.diagnostics) (hf c.value)

/-- A step whose value no change affects, and what follows it. -/
theorem told_then {look : β → δ} {c c' : Checked α} {f : α → Checked β} {f' : α → Checked δ}
    (hc : c' = c.told ch id) (hf : ∀ a, f' a = (f a).told ch look) :
    c' >>= f' = (c >>= f).told ch look := told_bind hc hf

/-- A value that comes with a diagnostic. -/
theorem told_reported (ch : Change) (look : α → β) (d : Diagnostic)
    (hd : d.isUnresolved = false) (a : α) :
    (do report (d.moved ch.relocation); pure (look a)) = (do report d; pure a).told ch look :=
  told_then (report_changed ch d hd) fun _ => rfl

theorem told_ite {look : α → β} {p : Prop} [Decidable p] {c d : Checked α} {c' d' : Checked β}
    (hc : c' = c.told ch look) (hd : d' = d.told ch look) :
    (if p then c' else d') = (if p then c else d).told ch look := by
  by_cases hp : p
  · rw [if_pos hp, if_pos hp, hc]
  · rw [if_neg hp, if_neg hp, hd]

theorem told_each {l : α → γ} {k : β → δ} {f : α → Checked β} {f' : γ → Checked δ}
    {as : List α} (hf : ∀ a, f' (l a) = (f a).told ch k) :
    each f' (as.map l) = (each f as).told ch (List.map k) := by
  induction as with
  | nil => rfl
  | cons a as ih =>
      exact told_bind (hf a) fun b => told_bind ih fun bs => rfl

end Checked

/-! ### Values of options -/

section

variable (ch : Change)

namespace OptionValue

variable (v : OptionValue)

@[simp] theorem text_changed : (v.moved ch.relocation).text = v.text :=
  text_moved _ ch.keepsText v

@[simp] theorem refuse_changed {α : Type} (expected : ValueClass) :
    ((v.moved ch.relocation).refuse expected : Checked (Option α)) =
      (v.refuse expected).told ch id := by
  rw [refuse, text_changed, span_moved]
  exact told_reported ch id (.valueInvalidType expected v.text v.span) rfl none

theorem checkFlag_changed : (v.moved ch.relocation).checkFlag = v.checkFlag.told ch id := by
  have hrefuse := v.refuse_changed ch (α := Bool) .boolean
  cases v with
  | ident negative name s =>
      cases negative with
      | true => exact hrefuse
      | false =>
          exact told_ite rfl (told_ite rfl hrefuse)
  | _ => exact hrefuse

theorem checkBytes_changed : (v.moved ch.relocation).checkBytes = v.checkBytes.told ch id := by
  have hrefuse := v.refuse_changed ch (α := List UInt8) .string
  cases v with
  | string s => rfl
  | _ => exact hrefuse

theorem checkText_changed : (v.moved ch.relocation).checkText = v.checkText.told ch id := by
  refine told_then (v.checkBytes_changed ch) fun bytes => ?_
  cases bytes with
  | none => rfl
  | some bytes =>
      rw [span_moved]
      dsimp only
      cases Utf8.decode? bytes with
      | some text => rfl
      | none => exact told_reported ch id (.invalidUtf8String v.span) rfl none

theorem checkChoice_changed (enum : String) (values : List (String × Nat)) :
    (v.moved ch.relocation).checkChoice enum values = (v.checkChoice enum values).told ch id := by
  have hrefuse := v.refuse_changed ch (α := Nat) (.enumValue enum)
  cases v with
  | ident negative name s =>
      cases negative with
      | true => exact hrefuse
      | false =>
          simp only [checkChoice, moved, Ident.text_moved]
          cases values.lookup name.text with
          | some n => rfl
          | none => exact hrefuse
  | _ => exact hrefuse

theorem custom_changed : (v.moved ch.relocation).custom = v.custom.told ch id := by
  cases v with
  | ident negative name s => cases negative <;> rfl
  | int n =>
      refine told_ite ?_ rfl
      rw [IntLiteral.toInt64?_moved]
      cases n.toInt64? with
      | some v => rfl
      | none =>
          exact told_reported ch id (.integerValueOutOfRange .signed64 n.value n.span) rfl none
  | aggregate text s =>
      rw [moved, ch.keepsText text]
      rfl
  | _ => rfl

end OptionValue

/-! ### Lists of options -/

theorem OptionNamePart.custom_moved (m : Relocation) (p : OptionNamePart) :
    (p.moved m).custom = p.custom := by
  cases p with
  | ident name => rfl
  | extension name s => rw [moved, custom, TypeName.text_moved, custom]

theorem OptionSetting.custom_changed (o : OptionSetting) :
    (o.moved ch.relocation).custom = o.custom.told ch id := by
  refine told_then (o.value.custom_changed ch) fun value => ?_
  have hparts : (o.moved ch.relocation).parts.map OptionNamePart.custom =
      o.parts.map OptionNamePart.custom := by
    simp [parts, moved, OptionNamePart.custom_moved, Function.comp_def]
  rw [hparts]
  rfl

section

variable {κ : Type} [OptionKey κ]

theorem OptionSetting.known?_moved (m : Relocation) (o : OptionSetting) :
    (o.moved m).known? κ = (o.known? κ).map fun k => (k.1, k.2.moved m) := by
  rw [known?, simpleName?_moved, known?]
  cases o.simpleName? with
  | none => rfl
  | some name => simp [Function.comp_def]

/-- Adding a known option to what the options behind it amount to. -/
theorem OptionSetting.apply_changed (o : OptionSetting) (key : κ)
    {c c' : Checked (OptionReading κ)} (hc : c' = c.told ch (.moved ch.relocation)) :
    (do let add ← (o.moved ch.relocation).apply key
        let r ← c'
        pure (add r)) =
      (do let add ← o.apply key
          let r ← c
          pure (add r)).told ch (OptionReading.moved ch.relocation) := by
  rw [apply, apply]
  split
  · simp only [bind_assoc, pure_bind]
    exact told_then (o.value.checkFlag_changed ch) fun v => told_bind hc fun r => rfl
  · simp only [bind_assoc, pure_bind]
    exact told_then (o.value.checkText_changed ch) fun v => told_bind hc fun r => rfl
  · simp only [bind_assoc, pure_bind]
    exact told_then (o.value.checkChoice_changed ch _ _) fun v => told_bind hc fun r => rfl
  · simp only [bind_assoc, pure_bind, nameSpan_moved]
    exact told_then (report_changed ch (.mapEntryOptionSet o.nameSpan) rfl) fun _ =>
      told_bind hc fun r => rfl
  · simp only [pure_bind]
    exact told_bind hc fun r => rfl

/-- What is found under a key, if what stands under each key is mapped. -/
theorem lookup_map {α β γ : Type} [BEq α] (f : β → γ) (a : α) (entries : List (α × β)) :
    (entries.map fun e => (e.1, f e.2)).lookup a = (entries.lookup a).map f := by
  induction entries with
  | nil => rfl
  | cons e entries ih =>
      rw [List.map_cons, List.lookup_cons, List.lookup_cons]
      split
      · rfl
      · exact ih

variable [DecidableEq κ]

theorem readOptionsAfter_changed (seen : List (κ × Span)) (os : List OptionSetting) :
    readOptionsAfter (seen.map fun s => (s.1, s.2.moved ch.relocation))
        (os.map (OptionSetting.moved ch.relocation)) =
      (readOptionsAfter seen os).told ch (OptionReading.moved ch.relocation) := by
  induction os generalizing seen with
  | nil => rfl
  | cons o os ih =>
      rw [List.map_cons, readOptionsAfter, readOptionsAfter, o.known?_moved]
      cases o.known? κ with
      | none =>
          exact told_then (o.custom_changed ch) fun c => told_bind (ih seen) fun r => rfl
      | some found =>
          obtain ⟨key, name⟩ := found
          simp only [Option.map_some, lookup_map]
          cases seen.lookup key with
          | none => exact o.apply_changed ch key (ih ((key, name.span) :: seen))
          | some earlier =>
              exact told_then
                (report_changed ch (.duplicateOption name.text earlier name.span) rfl)
                fun _ => ih seen

theorem readOptions_changed (os : List OptionSetting) :
    (readOptions (os.map (OptionSetting.moved ch.relocation)) : Checked (OptionReading κ)) =
      (readOptions os).told ch (OptionReading.moved ch.relocation) :=
  readOptionsAfter_changed ch [] os

theorem optionsOf_changed (os : List OptionSetting) :
    (optionsOf (os.map (OptionSetting.moved ch.relocation)) : Checked (Option (Options κ))) =
      (optionsOf os).told ch id :=
  told_bind (readOptions_changed ch os) fun _ => rfl

theorem optionsOf_list_changed (l : Option OptionList) :
    (optionsOf (OptionList.settingsOf (l.map (OptionList.moved ch.relocation))) :
        Checked (Option (Options κ))) = (optionsOf (OptionList.settingsOf l)).told ch id := by
  rw [OptionList.settingsOf_moved]
  exact optionsOf_changed ch _

theorem optionsOf_settings_changed (os : List OptionStatement) :
    (optionsOf (Context.settings (os.map (OptionStatement.moved ch.relocation))) :
        Checked (Option (Options κ))) = (optionsOf (Context.settings os)).told ch id := by
  have hsettings : Context.settings (os.map (OptionStatement.moved ch.relocation)) =
      (Context.settings os).map (OptionSetting.moved ch.relocation) := by
    simp [Context.settings, OptionStatement.moved, Function.comp_def]
  rw [hsettings]
  exact optionsOf_changed ch _

end

/-! ### Numbers and reservations -/

namespace IntLiteral

variable (n : IntLiteral)

theorem checkMessageNumber_changed :
    (n.moved ch.relocation).checkMessageNumber = n.checkMessageNumber.told ch id := by
  have hreport := told_reported (β := Option Int) ch id (.invalidMessageNumber n.span) rfl none
  rw [checkMessageNumber, checkMessageNumber, toInt32?_moved]
  cases n.toInt32? with
  | none => exact hreport
  | some v => exact told_ite rfl hreport

theorem checkFieldNumber_changed :
    (n.moved ch.relocation).checkFieldNumber = n.checkFieldNumber.told ch id := by
  refine told_then (n.checkMessageNumber_changed ch) fun number => ?_
  cases number with
  | none => rfl
  | some v =>
      exact told_then (reportIf_changed ch _ (.reservedMessageNumber n.span) rfl) fun _ => rfl

theorem checkEnumNumber_changed :
    (n.moved ch.relocation).checkEnumNumber = n.checkEnumNumber.told ch id := by
  rw [checkEnumNumber, checkEnumNumber, toInt32?_moved]
  cases n.toInt32? with
  | none => exact told_reported ch id (.invalidEnumNumber n.span) rfl none
  | some v => rfl

end IntLiteral

namespace NumberRange

variable (r : NumberRange)

theorem rangeOf_changed (start stop : Option Int) :
    rangeOf (r.moved ch.relocation) start stop =
      (rangeOf r start stop).told ch (CheckedRange.moved ch.relocation) := by
  unfold rangeOf
  rw [span_moved]
  cases start with
  | none => rfl
  | some a =>
      cases stop with
      | none => rfl
      | some b =>
          refine told_ite ?_ rfl
          exact told_reported ch (CheckedRange.moved ch.relocation) (.invalidRange r.span) rfl
            ⟨some a, none, r.span⟩

theorem check_changed {number : IntLiteral → Checked (Option Int)}
    (hnumber : ∀ n, number (n.moved ch.relocation) = (number n).told ch id) (greatest : Int) :
    (r.moved ch.relocation).check number greatest =
      (r.check number greatest).told ch (CheckedRange.moved ch.relocation) := by
  have hstop : ∀ start, stopOf (r.moved ch.relocation) number greatest start =
      (stopOf r number greatest start).told ch id := by
    intro start
    obtain ⟨first, last⟩ := r
    cases last with
    | same => rfl
    | max s => rfl
    | _ n => exact hnumber n
  rw [check_eq, check_eq]
  exact told_then (hnumber r.start) fun start =>
    told_then (hstop start) fun stop => r.rangeOf_changed ch start stop

theorem checkMessage_changed :
    (r.moved ch.relocation).checkMessage =
      r.checkMessage.told ch (CheckedRange.moved ch.relocation) :=
  r.check_changed ch (fun n => n.checkMessageNumber_changed ch) _

theorem checkEnum_changed :
    (r.moved ch.relocation).checkEnum =
      r.checkEnum.told ch (CheckedRange.moved ch.relocation) :=
  r.check_changed ch (fun n => n.checkEnumNumber_changed ch) _

end NumberRange

theorem Reserved.check_changed {range : NumberRange → Checked CheckedRange}
    (hrange : ∀ r, range (r.moved ch.relocation) =
      (range r).told ch (CheckedRange.moved ch.relocation)) (rs : List Reserved) :
    Reserved.check range (rs.map (Reserved.moved ch.relocation)) =
      (Reserved.check range rs).told ch (Reservations.moved ch.relocation) := by
  refine told_bind (told_each (k := Reservations.moved ch.relocation) fun r => ?_) fun parts => ?_
  · obtain ⟨kind, s⟩ := r
    cases kind with
    | ranges rs => exact told_bind (told_each hrange) fun checked => rfl
    | names ns => rfl
  · rw [told_pure]
    simp [Reservations.moved, List.flatMap_map, List.map_flatMap]

theorem find?_map_of_iff {α : Type} {f : α → α} {p : α → Bool} (hp : ∀ a, p (f a) = p a)
    (as : List α) : (as.map f).find? p = (as.find? p).map f := by
  rw [List.find?_map]
  simp only [Function.comp_def, hp]

theorem checkUnreserved_changed (reserved extensions : List CheckedRange) (number : Int)
    (s : Span) :
    checkUnreserved (reserved.map (CheckedRange.moved ch.relocation))
        (extensions.map (CheckedRange.moved ch.relocation)) number (s.moved ch.relocation) =
      (checkUnreserved reserved extensions number s).told ch id := by
  have hcontains : ∀ r : CheckedRange,
      (r.moved ch.relocation).contains number = r.contains number := fun _ => rfl
  unfold checkUnreserved
  rw [find?_map_of_iff hcontains, find?_map_of_iff hcontains]
  cases reserved.find? (·.contains number) <;> cases extensions.find? (·.contains number)
  · rfl
  · rename_i r
    exact report_changed ch (.fieldNumberInExtensionRange number s r.span) rfl
  · rename_i r
    exact told_then (report_changed ch (.reservedFieldNumber number s r.span) rfl) fun _ => rfl
  · rename_i r e
    exact told_then (report_changed ch (.reservedFieldNumber number s r.span) rfl) fun _ =>
      report_changed ch (.fieldNumberInExtensionRange number s e.span) rfl

theorem checkUnreservedName_changed (reserved : List Ident) (name : Ident) :
    checkUnreservedName (reserved.map (Ident.moved ch.relocation)) (name.moved ch.relocation) =
      (checkUnreservedName reserved name).told ch id := by
  have htext : ∀ r : Ident, decide ((r.moved ch.relocation).text = name.text) =
      decide (r.text = name.text) := fun _ => rfl
  rw [checkUnreservedName, Ident.text_moved, find?_map_of_iff htext, checkUnreservedName]
  cases reserved.find? (·.text = name.text) with
  | none => rfl
  | some r => exact report_changed ch (.reservedFieldName name.text name.span r.span) rfl

theorem checkFieldNumbers_changed (reservations : Reservations) (extensions : List CheckedRange)
    (seen : List (Int × Span)) (fields : List (Option Int × Field)) :
    checkFieldNumbers (reservations.moved ch.relocation)
        (extensions.map (CheckedRange.moved ch.relocation))
        (seen.map fun s => (s.1, s.2.moved ch.relocation))
        (fields.map fun f => (f.1, f.2.moved ch.relocation)) =
      (checkFieldNumbers reservations extensions seen fields).told ch id := by
  induction fields generalizing seen with
  | nil => rfl
  | cons entry fields ih =>
      obtain ⟨number, f⟩ := entry
      have hname := checkUnreservedName_changed ch reservations.names f.name
      cases number with
      | none => exact told_then hname fun _ => ih seen
      | some n =>
          have hnumber := checkUnreserved_changed ch reservations.ranges extensions n f.number.span
          rw [List.map_cons, checkFieldNumbers, checkFieldNumbers, lookup_map]
          cases seen.lookup n with
          | none =>
              exact told_then hnumber fun _ => told_then hname fun _ =>
                ih ((n, f.number.span) :: seen)
          | some s =>
              exact told_then (report_changed ch (.duplicateNumber n s f.number.span) rfl) fun _ =>
                told_then hnumber fun _ => told_then hname fun _ => ih seen

/-! ### Labels -/

namespace Field

variable (f : Field)

theorem checkLabel_changed (dialect : Dialect) :
    (f.moved ch.relocation).checkLabel dialect = (f.checkLabel dialect).told ch id := by
  obtain ⟨label, kind, name, number, options, s⟩ := f
  rw [checkLabel, checkLabel, moved]
  simp only [FieldKind.isMap_moved]
  refine told_ite ?_ ?_
  · cases label with
    | none => rfl
    | some label => exact told_reported ch id (.mapFieldWithLabel label.2) rfl _
  · rcases label with _ | ⟨_ | _ | _, place⟩
    · rfl
    · rfl
    · exact told_then (reportIf_changed ch _ (.proto3RequiredField place) rfl) fun _ => rfl
    · rfl

theorem checkOneofLabel_changed :
    (f.moved ch.relocation).checkOneofLabel = f.checkOneofLabel.told ch id := by
  obtain ⟨label, kind, name, number, options, s⟩ := f
  rw [checkOneofLabel, checkOneofLabel, moved]
  simp only [FieldKind.isMap_moved]
  refine told_ite ?_ ?_
  · exact told_reported ch id (.invalidOneofFieldKind s) rfl _
  · cases label with
    | none => rfl
    | some label => exact told_reported ch id (.oneofFieldWithLabel label.2) rfl _

theorem checkExtensionLabel_changed :
    (f.moved ch.relocation).checkExtensionLabel = f.checkExtensionLabel.told ch id := by
  obtain ⟨label, kind, name, number, options, s⟩ := f
  rw [checkExtensionLabel, checkExtensionLabel, moved]
  simp only [FieldKind.isMap_moved]
  refine told_ite ?_ ?_
  · exact told_reported ch id (.invalidExtendFieldKind s) rfl _
  · rcases label with _ | ⟨_ | _ | _, place⟩
    · rfl
    · rfl
    · exact told_reported ch id (.requiredExtendField place) rfl _
    · rfl

end Field

end

end ProtoSchema
