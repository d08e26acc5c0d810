/-
Which checks are about numbers.

Eight kinds of diagnostics concern the numbers of a declaration, the ranges it reserves and the
names it reserves.  Only a few checks make them.  All others are about something else, and so
they are quiet about numbers, whatever they report (`quiet_of_about`).  What remains is one number,
one range, and one pass over the fields of a message or the values of an enum.
-/
import ProtoSchema.Proofs.Assembly.Topics

namespace ProtoSchema

/-- Whether a diagnostic is about numbers, ranges of numbers, or reserved names. -/
def Diagnostic.isNumbering : Diagnostic → Bool
  | invalidMessageNumber _ | reservedMessageNumber _ | duplicateNumber .. | reservedFieldNumber ..
  | fieldNumberInExtensionRange .. | reservedFieldName .. | invalidEnumNumber _
  | invalidRange _ => true
  | _ => false

theorem Diagnostic.isNumbering_eq (d : Diagnostic) :
    d.isNumbering = decide (d.topic = .numbers) := by
  cases d <;> rfl

namespace Checked

variable {α β : Type}

/-- Nothing is reported about numbers. -/
def Quiet (c : Checked α) : Prop := ∀ d ∈ c.diagnostics, d.isNumbering = false

instance (c : Checked α) : Decidable c.Quiet :=
  inferInstanceAs (Decidable (∀ d ∈ c.diagnostics, d.isNumbering = false))

@[simp] theorem quiet_pure (a : α) : (pure a : Checked α).Quiet := by
  intro d hd
  cases hd

@[simp] theorem quiet_bind {c : Checked α} {f : α → Checked β} :
    (c >>= f).Quiet ↔ c.Quiet ∧ (f c.value).Quiet := by
  unfold Quiet
  rw [diagnostics_bind, List.forall_mem_append]

@[simp] theorem quiet_map {f : α → β} {c : Checked α} : (f <$> c).Quiet ↔ c.Quiet := by
  unfold Quiet
  rw [diagnostics_map]

@[simp] theorem quiet_each {f : α → Checked β} {as : List α} :
    (each f as).Quiet ↔ ∀ a ∈ as, (f a).Quiet := by
  unfold Quiet
  simp only [diagnostics_each, List.mem_flatMap]
  constructor
  · intro h a ha d hd
    exact h d ⟨a, ha, hd⟩
  · rintro h d ⟨a, ha, hd⟩
    exact h a ha d hd

@[simp] theorem quiet_report {d : Diagnostic} : (report d).Quiet ↔ d.isNumbering = false := by
  unfold Quiet
  rw [diagnostics_report, List.forall_mem_singleton]

@[simp] theorem quiet_reportIf {b : Bool} {d : Diagnostic} :
    (reportIf b d).Quiet ↔ (b = true → d.isNumbering = false) := by
  unfold reportIf
  cases b with
  | true => simp
  | false => simp

/-- A check of anything else is quiet. -/
theorem quiet_of_about {t : Topic} {c : Checked α} (h : c.About t) (ht : t ≠ .numbers) :
    c.Quiet := by
  intro d hd
  rw [Diagnostic.isNumbering_eq, h d hd]
  exact decide_eq_false ht

/-! ### Options and defaults -/

@[simp] theorem quiet_optionsOf {κ : Type} [OptionKey κ] [DecidableEq κ] (os : List OptionSetting) :
    (optionsOf os : Checked (Option (Options κ))).Quiet :=
  quiet_of_about (about_optionsOf os) Topic.noConfusion

@[simp] theorem quiet_fieldOptions (list : Option OptionList) :
    (Context.fieldOptions list).Quiet :=
  quiet_of_about (about_fieldOptions list) Topic.noConfusion

variable (ctx : Context) (scope : FullName)

@[simp] theorem quiet_defaultValue (kind : FieldKind) (label : Label) (type : FieldType)
    (o : OptionSetting) : (ctx.defaultValue kind label type o).Quiet :=
  quiet_of_about (about_defaultValue ctx kind label type o) Topic.noConfusion

/-! ### Types and labels -/

@[simp] theorem quiet_fieldType (u : TypeUse) : (ctx.fieldType scope u).Quiet :=
  quiet_of_about (about_fieldType ctx scope u) Topic.noConfusion

@[simp] theorem quiet_messageType (n : TypeName) : (ctx.messageType scope n).Quiet :=
  quiet_of_about (about_messageType ctx scope n) Topic.noConfusion

@[simp] theorem quiet_mapEntry? (f : Field) : (ctx.mapEntry? scope f).Quiet := by
  unfold Context.mapEntry?
  split
  · exact quiet_pure _
  · rename_i key keySpan value valueSpan s hkind
    have hkey := quiet_of_about (about_keyType key keySpan) Topic.noConfusion
    simp [hkey]

@[simp] theorem quiet_checkLabel (f : Field) (dialect : Dialect) :
    (f.checkLabel dialect).Quiet :=
  quiet_of_about (about_checkLabel f dialect) Topic.noConfusion

@[simp] theorem quiet_checkOneofLabel (f : Field) : f.checkOneofLabel.Quiet :=
  quiet_of_about (about_checkOneofLabel f) Topic.noConfusion

@[simp] theorem quiet_checkExtensionLabel (f : Field) : f.checkExtensionLabel.Quiet :=
  quiet_of_about (about_checkExtensionLabel f) Topic.noConfusion

/-! ### Enums and services -/

@[simp] theorem quiet_checkFirstValue (e : Enum) : (ctx.checkFirstValue e).Quiet :=
  quiet_of_about (about_checkFirstValue ctx e) Topic.noConfusion

@[simp] theorem quiet_service (s : Service) : (ctx.service scope s).Quiet := by
  have hmethod : ∀ m : Method, (ctx.method scope m).Quiet := by
    intro m
    unfold Context.method
    simp
  unfold Context.service
  simp [hmethod]

end Checked

end ProtoSchema
