/-
Rules for labels, defaults and first values hold everywhere in what is accepted.

Each rule is checked where a declaration is assembled, and several checks share one rule: a label
is checked in one way for a field of a message, in another way for a member of a oneof, and in a
third for an extension, each with the map fields that may stand there.  The rules are stated here
of descriptors and of what was written, without regard to which check is in charge.

Nothing is reported of a file only if nothing is reported of what it holds, and everything in its
descriptor comes from that.  A map field is one that is written as a map: a field that names the
message of the entries of some map as its type is not one.
-/
import Mathlib.Data.List.Forall2
import ProtoSchema.Proofs.Assembly.Origins

namespace ProtoSchema

open Checked

/-! ### Rules -/

/-- The rules for the labels and defaults of fields, those of extensions among them. -/
structure FieldDescriptor.IsRegular (dialect : Dialect) (f : FieldDescriptor) : Prop where
  notRequired : dialect = .proto3 → f.label ≠ .required
  noDefault : dialect = .proto3 → f.defaultValue = none
  defaultable : f.defaultValue ≠ none → f.label ≠ .repeated ∧ f.typeNumber? ≠ some 11

/-- The rules for the values of enums. -/
structure EnumDescriptor.IsRegular (dialect : Dialect) (e : EnumDescriptor) : Prop where
  nonempty : e.values ≠ []
  firstValue : dialect = .proto3 → e.values.head?.bind EnumValueDescriptor.number = some 0

/-- A map with a key of a legal type, as it is written. -/
def FieldKind.HasLegalKey (kind : FieldKind) : Prop :=
  ∃ key keySpan value valueSpan span,
    kind = .map (.scalar key) keySpan value valueSpan span ∧ key.isMapKey = true

/-- The descriptor of a member as the member is written, and where. -/
structure FieldDescriptor.Follows (dialect : Dialect) (f : FieldDescriptor) (x : Member) :
    Prop where
  name : f.name = x.field.name.text
  /-- A member that is written within a oneof is optional, and no map. -/
  oneof : ∀ place, x.oneof = some place →
    f.oneofIndex = some place ∧ f.label = .optional ∧ x.field.kind.isMap = false
  /-- A map is repeated without a label that says so. -/
  map : x.field.kind.isMap = true →
    f.label = .repeated ∧ x.field.label = none ∧ x.field.kind.HasLegalKey
  proto3Optional : f.proto3Optional = true ↔
    x.oneof = none ∧ dialect = .proto3 ∧ ∃ span, x.field.label = some (.optional, span)

/-- The descriptor of a message as the message is written. -/
structure MessageDescriptor.Follows (dialect : Dialect) (d : MessageDescriptor) (m : Message) :
    Prop where
  fields : List.Forall₂ (FieldDescriptor.Follows dialect) d.fields m.fieldMembers
  oneofs : d.oneofs.take m.oneofs.length = m.oneofs.map Context.declaredOneof
  /-- Every oneof has a member. -/
  nonempty : ∀ k < d.oneofs.length, ∃ f ∈ d.fields, f.oneofIndex = some k

/-- The descriptor of the entries of a map. -/
def MessageDescriptor.IsEntry (d : MessageDescriptor) : Prop :=
  ∃ key type, d.fields = [Context.entryField "key" 1 (some (.scalar key)),
    Context.entryField "value" 2 (some type)] ∧ key.isMapKey = true ∧ d.oneofs = []

/-- The descriptor of a file follows the rules, at any depth. -/
structure FileDescriptor.Follows (d : FileDescriptor) (file : File) : Prop where
  dialect : d.dialect = file.dialect
  fields : ∀ f ∈ d.allFields, f.IsRegular d.dialect
  enums : ∀ scope e, d.HasEnum scope e → e.IsRegular d.dialect
  messages : ∀ n md, d.HasMessage n md →
    (∃ scope m, file.Holds scope (.message m) ∧ n = scope.child m.name.text ∧
      md.Follows d.dialect m) ∨ md.IsEntry
  held : ∀ scope m, file.Holds scope (.message m) →
    ∃ md, d.HasMessage (scope.child m.name.text) md ∧ md.Follows d.dialect m
  extensions : ∀ f ∈ d.allExtensions, f.label ≠ .required ∧ f.proto3Optional = false
  extendBlocks : ∀ scope e, file.Holds scope (.extend e) → ∀ f ∈ e.fields, f.kind.isMap = false

/-! ### Labels -/

namespace Field

variable {f : Field} {dialect : Dialect}

theorem checkLabel_of_isMap (dialect : Dialect) (hmap : f.kind.isMap = true) :
    (f.checkLabel dialect).value = (.repeated, false) := by
  unfold checkLabel
  rw [if_pos hmap]
  cases f.label <;> rfl

theorem unlabelled_of_isMap (h : (f.checkLabel dialect).Clean) (hmap : f.kind.isMap = true) :
    f.label = none := by
  unfold checkLabel at h
  rw [if_pos hmap] at h
  cases hlabel : f.label with
  | none => rfl
  | some l =>
      rw [hlabel] at h
      exact absurd (clean_bind.mp h).1 (not_clean_report _)

theorem checkLabel_ne_required (h : (f.checkLabel dialect).Clean) (hd : dialect = .proto3) :
    (f.checkLabel dialect).value.1 ≠ .required := by
  cases hmap : f.kind.isMap with
  | true =>
      rw [checkLabel_of_isMap dialect hmap]
      exact Label.noConfusion
  | false =>
      unfold checkLabel at h ⊢
      rw [if_neg (by simp [hmap])] at h ⊢
      split at h
      · exact Label.noConfusion
      · exact Label.noConfusion
      · exact absurd (clean_reportIf.mp (clean_bind.mp h).1) (by simp [hd])
      · exact Label.noConfusion

theorem checkOneofLabel_eq (f : Field) : f.checkOneofLabel.value = .optional := by
  unfold checkOneofLabel
  split
  · rfl
  · cases f.label <;> rfl

theorem checkExtensionLabel_ne_required (h : f.checkExtensionLabel.Clean) :
    f.checkExtensionLabel.value ≠ .required := by
  have hmap := Context.not_map_of_checkExtensionLabel h
  unfold checkExtensionLabel at h ⊢
  rw [if_neg (by simp [hmap])] at h ⊢
  split at h
  · exact Label.noConfusion
  · exact Label.noConfusion
  · exact absurd (clean_bind.mp h).1 (not_clean_report _)
  · exact Label.noConfusion

end Field

namespace Context

variable {ctx : Context} {scope : FullName} {f : Field} {label : Label}

/-! ### Defaults -/

/-- A default that is accepted stands where there can be one. -/
theorem defaultable_of_clean {kind : FieldKind} {type : FieldType} {o : OptionSetting}
    (h : (ctx.defaultValue kind label type o).Clean) :
    ctx.dialect ≠ .proto3 ∧ label ≠ .repeated ∧ ∀ n, type ≠ .message n := by
  unfold defaultValue at h
  split at h
  · exact absurd (clean_bind.mp h).1 (not_clean_report _)
  · rename_i hdialect
    split at h
    · exact absurd (clean_bind.mp h).1 (not_clean_report _)
    · rename_i hnone
      refine ⟨hdialect, ?_, ?_⟩
      · rintro rfl
        cases kind <;> simp [undefaultable?] at hnone
      · rintro n rfl
        cases kind <;> cases label <;> simp [undefaultable?] at hnone

theorem defaultable_field (h : (ctx.field scope f label).Clean)
    (hdefault : (ctx.field scope f label).value.defaultValue ≠ none) :
    ctx.dialect ≠ .proto3 ∧ label ≠ .repeated ∧
      (ctx.field scope f label).value.typeNumber? ≠ some 11 := by
  rw [field_eq] at h hdefault ⊢
  simp only [clean_bind, value_bind, value_pure] at h hdefault
  unfold defaultOf at h hdefault
  cases hsetting : (fieldOptions f.options).value.default with
  | none =>
      rw [hsetting] at hdefault
      exact absurd rfl hdefault
  | some setting =>
      simp only [hsetting] at h
      obtain ⟨hdialect, hlabel, htype⟩ := defaultable_of_clean h.2.2.2.1
      refine ⟨hdialect, hlabel, ?_⟩
      simp only [value_bind, value_pure, FieldDescriptor.typeNumber?, Option.bind_some]
      cases hvalue : (typeOf ctx scope f).value with
      | scalar s => cases s <;> simp [FieldType.number?]
      | message n => exact absurd hvalue (htype n)
      | enum n => simp [FieldType.number?]
      | unknown n => simp [FieldType.number?]

/-- The descriptor of a field of which nothing is reported follows the rules. -/
theorem isRegular_field (h : (ctx.field scope f label).Clean)
    (hlabel : ctx.dialect = .proto3 → label ≠ .required) :
    (ctx.field scope f label).value.IsRegular ctx.dialect where
  notRequired hdialect := by
    rw [label_field]
    exact hlabel hdialect
  noDefault hdialect :=
    Classical.byContradiction fun hdefault => (defaultable_field h hdefault).1 hdialect
  defaultable hdefault := by
    rw [label_field]
    exact (defaultable_field h hdefault).2

/-! ### Enums -/

theorem isRegular_enum {e : Enum} (h : (ctx.enum e).Clean) :
    (ctx.enum e).value.IsRegular ctx.dialect := by
  have hvalues : (ctx.enum e).value.values = e.values.map fun v => (enumValue v).value := by
    unfold Context.enum
    simp only [value_bind, value_each, value_pure]
  unfold Context.enum at h
  simp only [clean_bind, clean_each] at h
  obtain ⟨hfirst, hclean, -⟩ := h
  unfold checkFirstValue at hfirst
  cases hlist : e.values with
  | nil =>
      rw [hlist] at hfirst
      exact absurd hfirst (not_clean_report _)
  | cons v vs =>
      rw [hlist, List.map_cons] at hvalues
      rw [hlist] at hfirst
      refine ⟨by rw [hvalues]; exact List.cons_ne_nil _ _, fun hdialect => ?_⟩
      have hv := hclean v (by rw [hlist]; exact List.mem_cons_self)
      rw [hvalues, List.head?_cons, Option.bind_some]
      unfold enumValue IntLiteral.checkEnumNumber at hv ⊢
      cases hword : v.number.toInt32? with
      | none =>
          simp only [hword, Option.map_none, clean_bind] at hv
          exact absurd hv.1.1 (not_clean_report _)
      | some w =>
          obtain rfl : w = 0 := by simpa [hdialect, hword] using hfirst
          rfl

/-! ### Entries of maps -/

theorem isEntry_of_clean {d : MessageDescriptor} (h : (ctx.mapEntry? scope f).Clean)
    (hd : (ctx.mapEntry? scope f).value = some d) : f.kind.HasLegalKey ∧ d.IsEntry := by
  unfold mapEntry? at h hd
  split at h
  · rename_i hkind
    rw [hkind] at hd
    cases hd
  · rename_i key keySpan value valueSpan span hkind
    rw [hkind] at hd
    obtain rfl := Option.some.inj hd
    simp only [clean_bind] at h
    obtain ⟨hkey, -⟩ := h
    unfold keyType at hkey
    split at hkey
    · rename_i key
      split at hkey
      · rename_i hlegal
        refine ⟨⟨key, keySpan, value, valueSpan, span, hkind, hlegal⟩,
          key, (ctx.fieldType scope value).value, ?_, hlegal, rfl⟩
        simp only [keyType, if_pos hlegal, value_pure]
      · exact absurd (clean_bind.mp hkey).1 (not_clean_report _)
    · exact absurd (clean_bind.mp hkey).1 (not_clean_report _)

theorem exists_mapEntry? (ctx : Context) (scope : FullName) (h : f.kind.isMap = true) :
    ∃ d, (ctx.mapEntry? scope f).value = some d := by
  unfold mapEntry?
  cases hkind : f.kind with
  | plain type => rw [hkind] at h; cases h
  | map key keySpan value valueSpan span => exact ⟨_, rfl⟩

/-! ### Members -/

/-- Nothing is reported of a member of a message in a scope. -/
structure MemberClean (ctx : Context) (scope : FullName) (x : Member) : Prop where
  plain : x.oneof = none →
    (x.field.checkLabel ctx.dialect).Clean ∧ (ctx.mapEntry? scope x.field).Clean
  inOneof : x.oneof ≠ none → x.field.checkOneofLabel.Clean
  field : (ctx.field scope x.field (x.label ctx.dialect)).Clean

theorem clean_members {place next : Nat} {i : MessageItem}
    (h : (ctx.messageItem scope place next i).Clean) (other : Nat) :
    ∀ x ∈ i.members other, ctx.MemberClean scope x := by
  intro x hx
  cases i with
  | field f =>
      obtain rfl := List.mem_singleton.mp hx
      rw [messageItem] at h
      unfold fieldParts at h
      simp only [clean_bind] at h
      exact ⟨fun _ => ⟨h.2.1, h.1⟩, fun hne => absurd rfl hne, h.2.2.1⟩
  | oneof o =>
      obtain ⟨f, hf, rfl⟩ := List.mem_map.mp hx
      rw [messageItem] at h
      unfold oneofParts at h
      simp only [clean_bind, clean_each] at h
      obtain ⟨hlabel, hfield, -⟩ := h.2.2.1 f hf
      exact ⟨fun hnone => (Option.some_ne_none _ hnone).elim, fun _ => hlabel, hfield⟩
  | message m => cases hx
  | enum e => cases hx
  | extend e => cases hx

theorem nonempty_oneofs {place next : Nat} {i : MessageItem}
    (h : (ctx.messageItem scope place next i).Clean) : ∀ o ∈ i.oneofs, o.fields ≠ [] := by
  intro o ho
  cases i with
  | oneof o' =>
      obtain rfl := List.mem_singleton.mp ho
      rw [messageItem] at h
      unfold oneofParts at h
      rw [clean_bind, clean_reportIf] at h
      exact List.isEmpty_eq_false_iff.mp h.1
  | field f => cases ho
  | message m => cases ho
  | enum e => cases ho
  | extend e => cases ho

theorem clean_messageItems {items : List MessageItem} : ∀ {place next : Nat},
    (ctx.messageItems scope place next items).Clean →
      ∀ i ∈ items, ∃ place next, (ctx.messageItem scope place next i).Clean := by
  induction items with
  | nil => intro place next _ i hi; cases hi
  | cons j js ih =>
      intro place next h i hi
      rw [messageItems] at h
      simp only [clean_bind] at h
      rcases List.mem_cons.mp hi with rfl | hmem
      · exact ⟨place, next, h.1⟩
      · exact ih h.2.1 i hmem

theorem clean_items {m : Message} (h : (ctx.message scope m).Clean) :
    ∀ i ∈ m.items, ∃ place next,
      (ctx.messageItem (scope.child m.name.text) place next i).Clean := by
  rw [message_eq, clean_bind] at h
  exact clean_messageItems h.1

end Context

/-- If no declared oneof is empty, every oneof of the descriptor is referred to. -/
theorem MessageDescriptor.Assembles.exists_of_lt {d : MessageDescriptor} {ctx : Context}
    {scope : FullName} {m : Message} (h : d.Assembles ctx scope m)
    (hdeclared : ∀ o ∈ m.oneofs, o.fields ≠ []) {k : Nat} (hk : k < d.oneofs.length) :
    ∃ f ∈ d.fields, f.oneofIndex = some k := by
  have hnames : (d.fields.filter (·.oneofIndex = some k)).map FieldDescriptor.name ≠ [] := by
    by_cases hlt : k < m.oneofs.length
    · rw [h.declared k _ (List.getElem?_eq_getElem hlt)]
      exact mt List.map_eq_nil_iff.mp (hdeclared _ (List.getElem_mem hlt))
    · rw [h.oneofs, List.length_append, List.length_map, List.length_map] at hk
      have hown : k - m.oneofs.length < (m.tracked ctx.dialect).length := by omega
      have hfield := h.own _ _ (List.getElem?_eq_getElem hown)
      rw [Nat.add_sub_cancel' (Nat.le_of_not_lt hlt)] at hfield
      rw [hfield]
      exact List.cons_ne_nil _ _
  obtain ⟨f, hf⟩ := List.exists_mem_of_ne_nil _ (mt List.map_eq_nil_iff.mpr hnames)
  exact ⟨f, (List.mem_filter.mp hf).1, of_decide_eq_true (List.mem_filter.mp hf).2⟩

theorem MessageItem.mem_membersFrom {x : Member} (items : List MessageItem) : ∀ place : Nat,
    x ∈ membersFrom place items → ∃ i ∈ items, ∃ place, x ∈ i.members place := by
  induction items with
  | nil => intro place hx; cases hx
  | cons i is ih =>
      intro place hx
      rcases List.mem_append.mp hx with hx | hx
      · exact ⟨i, List.mem_cons_self, place, hx⟩
      · obtain ⟨j, hj, hmem⟩ := ih _ hx
        exact ⟨j, List.mem_cons_of_mem i hj, hmem⟩

namespace Context

variable {ctx : Context} {scope : FullName}

theorem memberClean_of_message {m : Message} (h : (ctx.message scope m).Clean) {x : Member}
    (hx : x ∈ m.fieldMembers) : ctx.MemberClean (scope.child m.name.text) x := by
  obtain ⟨i, hi, place, hmem⟩ := MessageItem.mem_membersFrom m.items 0 hx
  obtain ⟨_, _, hclean⟩ := clean_items h i hi
  exact clean_members hclean place x hmem

theorem MemberClean.not_isMap {x : Member} (h : ctx.MemberClean scope x) (hx : x.oneof ≠ none) :
    x.field.kind.isMap = false :=
  Field.not_map_of_checkOneofLabel (h.inOneof hx)

/-- A map that is accepted stands in no oneof, has no label, and has a legal key. -/
theorem MemberClean.map {x : Member} (h : ctx.MemberClean scope x)
    (hmap : x.field.kind.isMap = true) :
    x.oneof = none ∧ x.field.label = none ∧ x.field.kind.HasLegalKey := by
  have hnone : x.oneof = none := by
    refine Classical.byContradiction fun hne => ?_
    rw [h.not_isMap hne] at hmap
    cases hmap
  obtain ⟨hlabel, hentry⟩ := h.plain hnone
  obtain ⟨d, hd⟩ := exists_mapEntry? ctx scope hmap
  exact ⟨hnone, Field.unlabelled_of_isMap hlabel hmap, (isEntry_of_clean hentry hd).1⟩

/-- A member of which nothing is reported has the descriptor that it is written to have. -/
theorem MemberClean.follows {x : Member} (h : ctx.MemberClean scope x) {index : Option Nat}
    (hindex : ∀ place, x.oneof = some place → index = some place) :
    (ctx.memberAt scope x index).Follows ctx.dialect x where
  name := ctx.name_memberAt scope x index
  oneof place hplace := by
    have hlabel : x.label ctx.dialect = .optional := by
      unfold Member.label
      rw [hplace]
      exact x.field.checkOneofLabel_eq
    exact ⟨hindex place hplace, (label_field _ _ _ _).trans hlabel,
      h.not_isMap (by simp [hplace])⟩
  map hmap := by
    obtain ⟨hnone, hlabel, hkey⟩ := h.map hmap
    refine ⟨(label_field _ _ _ _).trans ?_, hlabel, hkey⟩
    unfold Member.label
    rw [hnone]
    exact congrArg Prod.fst (Field.checkLabel_of_isMap ctx.dialect hmap)
  proto3Optional := by
    show x.tracksPresence ctx.dialect = true ↔ _
    rw [tracksPresence_iff]
    constructor
    · rintro ⟨hnone, hdialect, -, hlabel⟩
      exact ⟨hnone, hdialect, hlabel⟩
    · rintro ⟨hnone, hdialect, span, hlabel⟩
      refine ⟨hnone, hdialect, Bool.eq_false_iff.mpr fun hmap => ?_, span, hlabel⟩
      -- The label of a map is dropped, but not silently.
      rw [(h.map hmap).2.1] at hlabel
      cases hlabel

/-- The descriptor of a message of which nothing is reported follows the message. -/
theorem follows_message {m : Message} (h : (ctx.message scope m).Clean) :
    (ctx.message scope m).value.Follows ctx.dialect m where
  fields := by
    rw [(ctx.assembles_message scope m).fields]
    refine List.forall₂_iff_get.mpr ⟨List.length_mapIdx, fun k hk hk' => ?_⟩
    rw [List.get_eq_getElem, List.get_eq_getElem, List.getElem_mapIdx]
    refine (memberClean_of_message h (List.getElem_mem hk')).follows fun place hplace => ?_
    unfold Message.oneofIndex
    rw [if_neg, hplace]
    intro htracks
    rw [(tracksPresence_iff.mp htracks).1] at hplace
    cases hplace
  oneofs := by
    rw [(ctx.assembles_message scope m).oneofs]
    exact List.take_left' (List.length_map _)
  nonempty k hk := by
    refine (ctx.assembles_message scope m).exists_of_lt (fun o ho => ?_) hk
    obtain ⟨i, hi, hmem⟩ := List.mem_flatMap.mp ho
    obtain ⟨_, _, hitem⟩ := clean_items h i hi
    exact nonempty_oneofs hitem o hmem

end Context

/-! ### Files -/

namespace File

open Context

variable {file : File} {name : String} {symbols : SymbolTable} {scope : FullName}

/-- If nothing is reported of a file, nothing is reported of what it holds. -/
theorem Holds.clean {item : MessageItem} (h : file.Holds scope item)
    (hclean : (file.describe name symbols).Clean) :
    ∃ place next, ((file.context symbols).messageItem scope place next item).Clean := by
  induction h with
  | message hm =>
      unfold File.describe at hclean
      simp only [clean_bind, clean_each] at hclean
      refine ⟨0, 0, ?_⟩
      rw [messageItem, clean_bind]
      exact ⟨hclean.1 _ hm, clean_pure _⟩
  | enum he =>
      unfold File.describe at hclean
      simp only [clean_bind, clean_each] at hclean
      refine ⟨0, 0, ?_⟩
      rw [messageItem, clean_bind]
      exact ⟨hclean.2.1 _ he, clean_pure _⟩
  | extend he =>
      unfold File.describe at hclean
      simp only [clean_bind, clean_each] at hclean
      refine ⟨0, 0, ?_⟩
      rw [messageItem, clean_bind]
      exact ⟨hclean.2.2.1 _ he, clean_pure _⟩
  | within _ hitem ih =>
      obtain ⟨place, next, hm⟩ := ih
      rw [messageItem, clean_bind] at hm
      exact clean_items hm.1 _ hitem

theorem Holds.clean_message {m : Message} (h : file.Holds scope (.message m))
    (hclean : (file.describe name symbols).Clean) :
    ((file.context symbols).message scope m).Clean := by
  obtain ⟨place, next, hm⟩ := h.clean hclean
  rw [messageItem, clean_bind] at hm
  exact hm.1

theorem Holds.clean_extensions {e : Extend} (h : file.Holds scope (.extend e))
    (hclean : (file.describe name symbols).Clean) :
    ∀ f ∈ e.fields, f.checkExtensionLabel.Clean ∧
      ((file.context symbols).field scope f f.checkExtensionLabel.value).Clean := by
  obtain ⟨place, next, he⟩ := h.clean hclean
  rw [messageItem, clean_bind] at he
  unfold Context.extensions at he
  simp only [clean_bind, clean_each] at he
  exact fun f hf => ⟨(he.1.2 f hf).1, (he.1.2 f hf).2.1⟩

/-- A field of the descriptor of a file of which nothing is reported follows the rules. -/
theorem GivesField.isRegular {f : FieldDescriptor} (h : file.GivesField (file.context symbols) f)
    (hclean : (file.describe name symbols).Clean) : f.IsRegular file.dialect := by
  cases h with
  | @member scope m k x hm hx =>
      have hmember := memberClean_of_message (hm.clean_message hclean) (List.mem_of_getElem? hx)
      have hfield := isRegular_field hmember.field fun hdialect => ?_
      · exact ⟨hfield.notRequired, hfield.noDefault, hfield.defaultable⟩
      · unfold Member.label
        split
        · rename_i hnone
          exact Field.checkLabel_ne_required (hmember.plain hnone).1 hdialect
        · rw [Field.checkOneofLabel_eq]
          exact Label.noConfusion
  | @extension scope e f he hf =>
      obtain ⟨hlabel, hclean⟩ := he.clean_extensions hclean f hf
      have hfield := isRegular_field hclean fun _ => Field.checkExtensionLabel_ne_required hlabel
      exact ⟨hfield.notRequired, hfield.noDefault, hfield.defaultable⟩
  | entry hf hd hmem =>
      have hentry : ∀ name number type, (entryField name number type).IsRegular file.dialect :=
        fun _ _ _ => ⟨fun _ => Label.noConfusion, fun _ => rfl, fun h => absurd rfl h⟩
      unfold mapEntry? at hd
      split at hd
      · cases hd
      · obtain rfl := Option.some.inj hd
        rcases List.mem_cons.mp hmem with rfl | hmem
        · exact hentry _ _ _
        · rw [List.mem_singleton.mp hmem]
          exact hentry _ _ _

/-- **The descriptor of a file of which nothing is reported follows the rules.** -/
theorem follows_describe (h : (file.describe name symbols).Clean) :
    (file.describe name symbols).value.Follows file where
  dialect := rfl
  fields f hf := (gives_of_mem_allFields hf).isRegular h
  enums scope e he := by
    obtain ⟨declared, hdeclared, rfl⟩ := holds_of_hasEnum he
    obtain ⟨place, next, hclean⟩ := hdeclared.clean h
    rw [messageItem, clean_bind] at hclean
    exact isRegular_enum hclean.1
  messages n md hmd := by
    cases gives_of_hasMessage hmd with
    | @message scope m hm =>
        exact Or.inl ⟨scope, m, hm, rfl, follows_message (hm.clean_message h)⟩
    | @entry scope f _ hf hentry =>
        obtain ⟨place, next, hclean⟩ := hf.clean h
        rw [messageItem] at hclean
        unfold fieldParts at hclean
        rw [clean_bind] at hclean
        exact Or.inr (isEntry_of_clean hclean.1 hentry).2
  held scope m hm := ⟨_, hm.hasMessage, follows_message (hm.clean_message h)⟩
  extensions f hf := by
    obtain ⟨scope, e, he, field, hfield, rfl⟩ := gives_of_mem_allExtensions hf
    have hlabel := (he.clean_extensions h field hfield).1
    exact ⟨(label_field _ _ _ _).trans_ne (Field.checkExtensionLabel_ne_required hlabel),
      proto3Optional_field _ _ _ _⟩
  extendBlocks scope e he f hf := not_map_of_checkExtensionLabel (he.clean_extensions h f hf).1

end File

/--
**The rules for labels, defaults and first values hold everywhere in what is accepted.**  If
nothing is reported of a source, its descriptor follows them at any depth, and so does the tree
that it was made from.
-/
theorem follows_of_readText {name source : String} {schema : Schema}
    (h : readText name source = .ok schema) (hclean : schema.report.diagnostics = []) :
    ∃ file, parseFile source.toList = .tree file [] ∧ schema.descriptor.Follows file := by
  obtain ⟨file, hparse, -, hrules, hdesc⟩ := clean_of_readText h hclean
  rw [hdesc]
  exact ⟨file, hparse, File.follows_describe hrules⟩

/-- A message with all that the rules are about, in the dialect that has fewer of them. -/
def assortedText : String :=
  "message M \x7b optional E e = 1 [default = R]; map<bool, M> m = 2; oneof o \x7b bool b = 3; \x7d
  extensions 9; extend M \x7b repeated M x = 9; \x7d \x7d enum E \x7b R = 1; \x7d"

/-- One with fields that keep track of their presence, in the other one. -/
def presentText : String :=
  "syntax = \"proto3\"; message M \x7b optional E e = 1; map<bool, M> m = 2; bool b = 3; \x7d
  enum E \x7b R = 0; \x7d"

theorem follows_of_readText_assorted :
    (∃ schema, readText "a.proto" assortedText = .ok schema ∧ schema.report.diagnostics = [] ∧
      ∃ file, parseFile assortedText.toList = .tree file [] ∧ schema.descriptor.Follows file) ∧
    ∃ schema, readText "a.proto" presentText = .ok schema ∧ schema.report.diagnostics = [] ∧
      ∃ file, parseFile presentText.toList = .tree file [] ∧ schema.descriptor.Follows file := by
  have hfollows : ∀ text, ((readText "a.proto" text).toOption.any fun s =>
      s.report.diagnostics.isEmpty) = true →
        ∃ schema, readText "a.proto" text = .ok schema ∧ schema.report.diagnostics = [] ∧
          ∃ file, parseFile text.toList = .tree file [] ∧ schema.descriptor.Follows file := by
    intro text hread
    obtain ⟨schema, heq, htest⟩ := exists_of_any_readText hread
    have hclean := List.isEmpty_iff.mp htest
    exact ⟨schema, heq, hclean, follows_of_readText heq hclean⟩
  exact ⟨hfollows assortedText (by decide +kernel), hfollows presentText (by decide +kernel)⟩

end ProtoSchema
