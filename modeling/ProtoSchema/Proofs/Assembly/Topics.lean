/-
What each check is about.

Checks report one after the other, and what they report ends up in one list.  To tell from that
list what came of one kind of check, diagnostics are sorted by topics: numbers, options, the keys
of maps, and everything else.  Each check keeps to one topic.  So of what a declaration reports,
the part about a topic is what the checks of that topic report, in the same order, and all other
checks can be left out (`on_of_about`, `on_of_about_ne`).
-/
import ProtoSchema.Assembly.File

namespace ProtoSchema

/-- What a diagnostic is about, as far as it is told apart. -/
inductive Topic where
  /-- Numbers, ranges of numbers, and reserved names. -/
  | numbers
  /-- Options, defaults of fields among them. -/
  | options
  | mapKeys
  | others
deriving DecidableEq, Repr

/-- What a diagnostic that a check of a declaration reports is about. -/
def Diagnostic.topic : Diagnostic → Topic
  | invalidMessageNumber _ | reservedMessageNumber _ | duplicateNumber .. | reservedFieldNumber ..
  | fieldNumberInExtensionRange .. | reservedFieldName .. | invalidEnumNumber _
  | invalidRange _ => .numbers
  | valueInvalidType .. | integerValueOutOfRange .. | invalidUtf8String _ | mapEntryOptionSet _
  | duplicateOption .. | proto3DefaultValue _ | invalidDefault .. => .options
  | invalidMapFieldKeyType _ => .mapKeys
  | _ => .others

namespace Checked

variable {α β : Type} {t : Topic}

/-- Everything that is reported is about a topic. -/
def About (t : Topic) (c : Checked α) : Prop := ∀ d ∈ c.diagnostics, d.topic = t

/-- What is reported about a topic. -/
def on (t : Topic) (c : Checked α) : List Diagnostic := c.diagnostics.filter (·.topic = t)

theorem on_of_about {c : Checked α} (h : c.About t) : c.on t = c.diagnostics :=
  List.filter_eq_self.mpr fun d hd => decide_eq_true (h d hd)

theorem on_of_about_ne {t' : Topic} {c : Checked α} (h : c.About t') (hne : t' ≠ t) :
    c.on t = [] :=
  List.filter_eq_nil_iff.mpr fun d hd => by simpa [h d hd] using hne

/-- What a check of one topic reports about any topic. -/
theorem on_eq {t' : Topic} {c : Checked α} (h : c.About t') (t : Topic) :
    c.on t = if t' = t then c.diagnostics else [] := by
  by_cases ht : t' = t
  · rw [if_pos ht]
    exact on_of_about (ht ▸ h)
  · rw [if_neg ht]
    exact on_of_about_ne h ht

@[simp] theorem on_pure (a : α) : (pure a : Checked α).on t = [] := rfl

@[simp] theorem on_bind (c : Checked α) (f : α → Checked β) :
    (c >>= f).on t = c.on t ++ (f c.value).on t := by
  unfold on
  rw [diagnostics_bind, List.filter_append]

@[simp] theorem on_map (f : α → β) (c : Checked α) : (f <$> c).on t = c.on t := by
  unfold on
  rw [diagnostics_map]

@[simp] theorem on_each (f : α → Checked β) (as : List α) :
    (each f as).on t = as.flatMap fun a => (f a).on t := by
  unfold on
  rw [diagnostics_each, List.filter_flatMap]

@[simp] theorem about_pure (a : α) : (pure a : Checked α).About t := by
  intro d hd
  cases hd

@[simp] theorem about_bind {c : Checked α} {f : α → Checked β} :
    (c >>= f).About t ↔ c.About t ∧ (f c.value).About t := by
  unfold About
  rw [diagnostics_bind, List.forall_mem_append]

@[simp] theorem about_map {f : α → β} {c : Checked α} : (f <$> c).About t ↔ c.About t := by
  unfold About
  rw [diagnostics_map]

@[simp] theorem about_each {f : α → Checked β} {as : List α} :
    (each f as).About t ↔ ∀ a ∈ as, (f a).About t := by
  unfold About
  simp only [diagnostics_each, List.mem_flatMap]
  constructor
  · intro h a ha d hd
    exact h d ⟨a, ha, hd⟩
  · rintro h d ⟨a, ha, hd⟩
    exact h a ha d hd

@[simp] theorem about_report {d : Diagnostic} : (report d).About t ↔ d.topic = t := by
  unfold About
  rw [diagnostics_report, List.forall_mem_singleton]

@[simp] theorem about_reportIf {b : Bool} {d : Diagnostic} :
    (reportIf b d).About t ↔ (b = true → d.topic = t) := by
  unfold reportIf
  cases b with
  | true => simp
  | false => simp

/-! ### Options -/

@[simp] theorem about_refuse (v : OptionValue) (expected : ValueClass) :
    (v.refuse expected : Checked (Option α)).About .options := by
  unfold OptionValue.refuse
  simp [Diagnostic.topic]

@[simp] theorem about_checkFlag (v : OptionValue) : v.checkFlag.About .options := by
  unfold OptionValue.checkFlag
  split
  · split
    · exact about_pure _
    · split
      · exact about_pure _
      · exact about_refuse _ _
  · exact about_refuse _ _

@[simp] theorem about_checkBytes (v : OptionValue) : v.checkBytes.About .options := by
  unfold OptionValue.checkBytes
  split
  · exact about_pure _
  · exact about_refuse _ _

@[simp] theorem about_checkText (v : OptionValue) : v.checkText.About .options := by
  unfold OptionValue.checkText
  rw [about_bind]
  refine ⟨about_checkBytes v, ?_⟩
  split
  · split
    · exact about_pure _
    · simp [Diagnostic.topic]
  · exact about_pure _

@[simp] theorem about_checkChoice (v : OptionValue) (enum : String)
    (values : List (String × Nat)) : (v.checkChoice enum values).About .options := by
  unfold OptionValue.checkChoice
  split
  · split
    · exact about_pure _
    · exact about_refuse _ _
  · exact about_refuse _ _

@[simp] theorem about_customValue (v : OptionValue) : v.custom.About .options := by
  cases v with
  | ident negative name s => cases negative <;> exact about_pure _
  | int n =>
      simp only [OptionValue.custom]
      split
      · split
        · exact about_pure _
        · simp [Diagnostic.topic]
      · exact about_pure _
  | float x s => exact about_pure _
  | string s => exact about_pure _
  | aggregate text s => exact about_pure _

@[simp] theorem about_custom (o : OptionSetting) : o.custom.About .options := by
  unfold OptionSetting.custom
  simp

section Keys

variable {κ : Type} [OptionKey κ]

@[simp] theorem about_apply (o : OptionSetting) (key : κ) : (o.apply key).About .options := by
  unfold OptionSetting.apply
  split
  · simp
  · simp
  · simp
  · simp [Diagnostic.topic]
  · exact about_pure _

variable [DecidableEq κ]

theorem about_readOptionsAfter (os : List OptionSetting) :
    ∀ seen : List (κ × Span), (readOptionsAfter seen os).About .options := by
  induction os with
  | nil => intro seen; exact about_pure _
  | cons o os ih =>
      intro seen
      rw [readOptionsAfter]
      split
      · split
        · simp [Diagnostic.topic, ih]
        · simp [ih]
      · simp [ih]

@[simp] theorem about_optionsOf (os : List OptionSetting) :
    (optionsOf os : Checked (Option (Options κ))).About .options := by
  unfold optionsOf readOptions
  simp [about_readOptionsAfter]

end Keys

@[simp] theorem about_fieldOptions (list : Option OptionList) :
    (Context.fieldOptions list).About .options := by
  unfold Context.fieldOptions readOptions
  simp [about_readOptionsAfter]

/-! ### Defaults -/

variable (ctx : Context) (scope : FullName)

theorem about_checkInteger (v : OptionValue) (type : IntegerType) :
    (v.checkInteger type).About .options := by
  unfold OptionValue.checkInteger OptionValue.checkBetween
  split
  · split
    · exact about_pure _
    · simp [Diagnostic.topic]
  · exact about_refuse _ _

theorem about_checkFloat (v : OptionValue) : v.checkFloat.About .options := by
  unfold OptionValue.checkFloat
  split
  · exact about_pure _
  · exact about_pure _
  · split
    · exact about_pure _
    · split
      · exact about_pure _
      · exact about_refuse _ _
  · exact about_refuse _ _

theorem about_checkEnumValue (v : OptionValue) (symbols : SymbolTable) (enum : FullName) :
    (v.checkEnumValue symbols enum).About .options := by
  unfold OptionValue.checkEnumValue
  split
  · split
    · exact about_pure _
    · exact about_refuse _ _
  · exact about_refuse _ _

theorem about_checkScalar (v : OptionValue) (s : ScalarType) :
    (v.checkScalar s).About .options := by
  unfold OptionValue.checkScalar
  split
  · simp [about_checkInteger]
  · split
    · simp
    · exact about_checkText v
    · simp
    · exact about_checkFloat v

@[simp] theorem about_defaultValue (kind : FieldKind) (label : Label) (type : FieldType)
    (o : OptionSetting) : (ctx.defaultValue kind label type o).About .options := by
  unfold Context.defaultValue
  split
  · simp [Diagnostic.topic]
  · split
    · simp [Diagnostic.topic]
    · split
      · exact about_checkScalar _ _
      · exact about_checkEnumValue _ _ _
      · exact about_pure _
      · exact about_pure _

/-! ### Types and labels -/

@[simp] theorem about_resolve (n : TypeName) : (ctx.resolve scope n).About .others := by
  unfold Context.resolve
  split
  · exact about_pure _
  · simp [Diagnostic.topic]

@[simp] theorem about_fieldType (u : TypeUse) : (ctx.fieldType scope u).About .others := by
  unfold Context.fieldType
  split
  · exact about_pure _
  · rw [about_bind]
    refine ⟨about_resolve ctx scope _, ?_⟩
    split
    · exact about_pure _
    · exact about_pure _
    · exact about_pure _

@[simp] theorem about_messageType (n : TypeName) : (ctx.messageType scope n).About .others := by
  unfold Context.messageType
  rw [about_bind]
  refine ⟨about_resolve ctx scope n, ?_⟩
  split
  · simp [Diagnostic.topic]
  · exact about_pure _

@[simp] theorem about_keyType (key : TypeUse) (span : Span) :
    (Context.keyType key span).About .mapKeys := by
  unfold Context.keyType
  split
  · split
    · exact about_pure _
    · simp [Diagnostic.topic]
  · simp [Diagnostic.topic]

@[simp] theorem about_checkLabel (f : Field) (dialect : Dialect) :
    (f.checkLabel dialect).About .others := by
  unfold Field.checkLabel
  split
  · dsimp only
    split
    · simp [Diagnostic.topic]
    · exact about_pure _
  · split
    · exact about_pure _
    · exact about_pure _
    · simp [Diagnostic.topic]
    · exact about_pure _

@[simp] theorem about_checkOneofLabel (f : Field) : f.checkOneofLabel.About .others := by
  unfold Field.checkOneofLabel
  split
  · simp [Diagnostic.topic]
  · split
    · simp [Diagnostic.topic]
    · exact about_pure _

@[simp] theorem about_checkExtensionLabel (f : Field) : f.checkExtensionLabel.About .others := by
  unfold Field.checkExtensionLabel
  split
  · simp [Diagnostic.topic]
  · split
    · exact about_pure _
    · exact about_pure _
    · simp [Diagnostic.topic]
    · exact about_pure _

@[simp] theorem about_checkFirstValue (e : Enum) : (ctx.checkFirstValue e).About .others := by
  unfold Context.checkFirstValue
  split
  · simp [Diagnostic.topic]
  · simp [Diagnostic.topic]

end Checked

end ProtoSchema
