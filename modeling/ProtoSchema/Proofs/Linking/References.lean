/-
What references come to.

A reference that cannot be resolved is reported, unless the file imports something.  So in a
file without imports and without reports every reference was resolved, to a type that the file
declares.  What a reference to it is then stored as depends on the kind of the type: a field
can be of any type, but an extension extends a message, and a method takes and gives messages;
an enum in one of these places is reported.

One reference is made without being resolved: the type of a map field is the message that holds
its entries.  That message is declared together with the field, so it needs no look at the
table to know that it is there.
-/
import ProtoSchema.Proofs.Linking.Types

namespace ProtoSchema

open Checked MessageDescriptor

variable {T : List (FullName × DefinitionKind)}

/-! ### References to known types -/

/-- A type of a field that is built in, or one of the given types. -/
def FieldType.IsAmong (T : List (FullName × DefinitionKind)) : FieldType → Prop
  | .scalar _ => True
  | .message n => (n, .message) ∈ T
  | .enum n => (n, .enum) ∈ T
  | .unknown _ => False

/-- A reference to one of the given types that is a message. -/
def TypeRef.IsMessageAmong (T : List (FullName × DefinitionKind)) (r : TypeRef) : Prop :=
  ∃ n, r = .resolved n ∧ (n, .message) ∈ T

/-- A field that refers to nothing but given types. -/
structure FieldDescriptor.IsLinked (T : List (FullName × DefinitionKind))
    (d : FieldDescriptor) : Prop where
  type : ∀ t, d.type = some t → t.IsAmong T
  extendee : ∀ r, d.extendee = some r → r.IsMessageAmong T

namespace MessageDescriptor

/-- The fields of a message and the extensions declared in it. -/
def ownFields (m : FullName × MessageDescriptor) : List FieldDescriptor :=
  m.2.fields ++ m.2.extensions

/-- The fields and extensions of messages in a scope, at any depth. -/
def fieldsAll (scope : FullName) (ms : List MessageDescriptor) : List FieldDescriptor :=
  (walkAll scope ms).flatMap ownFields

theorem fieldsAll_append (scope : FullName) (ms ns : List MessageDescriptor) :
    fieldsAll scope (ms ++ ns) = fieldsAll scope ms ++ fieldsAll scope ns := by
  unfold fieldsAll
  rw [walkAll_append, List.flatMap_append]

theorem fieldsAll_cons (scope : FullName) (m : MessageDescriptor) (ms : List MessageDescriptor) :
    fieldsAll scope (m :: ms) = m.fields ++ m.extensions ++
      fieldsAll (scope.child m.name) m.nested ++ fieldsAll scope ms := by
  unfold fieldsAll
  rw [walkAll, walk_eq, List.flatMap_append, List.flatMap_cons]
  rfl

end MessageDescriptor

/-- A context in which references are resolved to given types, or reported. -/
structure Context.Links (ctx : Context) (T : List (FullName × DefinitionKind)) : Prop where
  hasImports : ctx.hasImports = false
  isType : ∀ n k, (n, k) ∈ T → k = .message ∨ k = .enum
  resolve : ∀ (scope m : FullName) (n : TypeName) (k : DefinitionKind), scope.IsUndotted →
    n.isLegal = true → ctx.symbols.resolve scope n.reference = some (m, k) → (m, k) ∈ T

namespace Context

variable {ctx : Context} {scope : FullName}

/-- A name that is not reported means one of the types. -/
theorem Links.resolve_clean (hl : ctx.Links T) (hs : scope.IsUndotted) {n : TypeName}
    (hn : n.isLegal = true) (h : (ctx.resolve scope n).Clean) :
    ∃ m k, (ctx.resolve scope n).value = some (m, k) ∧ (m, k) ∈ T := by
  unfold Context.resolve at h ⊢
  split at h
  · rename_i found hfound
    obtain ⟨m, k⟩ := found
    exact ⟨m, k, rfl, hl.resolve scope m n k hs hn hfound⟩
  · rw [clean_bind, clean_reportIf, hl.hasImports] at h
    cases h.1

theorem Links.fieldType (hl : ctx.Links T) (hs : scope.IsUndotted) {u : TypeUse}
    (hu : u.HasWords) (h : (ctx.fieldType scope u).Clean) :
    (ctx.fieldType scope u).value.IsAmong T := by
  cases u with
  | scalar s => exact trivial
  | named n =>
      unfold Context.fieldType at h ⊢
      obtain ⟨m, k, hvalue, hmem⟩ := hl.resolve_clean hs hu (clean_bind.mp h).1
      rw [value_bind, hvalue]
      rcases hl.isType m k hmem with rfl | rfl
      · exact hmem
      · exact hmem

theorem Links.messageType (hl : ctx.Links T) (hs : scope.IsUndotted) {n : TypeName}
    (hn : n.isLegal = true) (h : (ctx.messageType scope n).Clean) :
    (ctx.messageType scope n).value.IsMessageAmong T := by
  unfold Context.messageType at h ⊢
  rw [clean_bind] at h
  obtain ⟨m, k, hvalue, hmem⟩ := hl.resolve_clean hs hn h.1
  rw [hvalue] at h
  rw [value_bind, hvalue]
  refine ⟨m, rfl, ?_⟩
  rcases hl.isType m k hmem with rfl | rfl
  · exact hmem
  · have henum := h.2
    rw [clean_bind, clean_reportIf] at henum
    cases henum.1

/-! ### Fields and extensions -/

/-- A field as it is assembled has the type of its kind, and extends nothing. -/
theorem type_field (ctx : Context) (scope : FullName) (f : Field) (label : Label) :
    (ctx.field scope f label).value.extendee = none ∧
      (ctx.field scope f label).value.type = some (match f.kind with
        | .plain type _ => (ctx.fieldType scope type).value
        | .map .. => .message (scope.child (mapEntryName f.name.text))) := by
  unfold Context.field
  cases f.kind with
  | plain type s =>
      simp only [value_bind]
      split
      · exact ⟨rfl, rfl⟩
      · exact ⟨rfl, rfl⟩
  | map key keySpan value valueSpan s =>
      simp only [value_bind]
      split
      · exact ⟨rfl, rfl⟩
      · exact ⟨rfl, rfl⟩

/-- A field refers to its type, and a map field to the message of its entries. -/
theorem Links.field (hl : ctx.Links T) (hs : scope.IsUndotted) {f : Field} {label : Label}
    (hf : f.HasWords)
    (hmap : f.kind.isMap = true → (scope.child (mapEntryName f.name.text), .message) ∈ T)
    (h : (ctx.field scope f label).Clean) : (ctx.field scope f label).value.IsLinked T := by
  obtain ⟨hextendee, htype⟩ := type_field ctx scope f label
  refine ⟨fun t ht => ?_, fun r hr => by rw [hextendee] at hr; cases hr⟩
  rw [htype] at ht
  obtain rfl := Option.some.inj ht
  unfold Context.field at h
  have hwords := hf.kind
  split
  · rename_i type s hkind
    rw [hkind] at h hwords
    simp only [clean_bind] at h
    exact hl.fieldType hs hwords h.2.1
  · rename_i hkind
    exact hmap (by rw [hkind]; rfl)

theorem not_map_of_checkExtensionLabel {f : Field} (h : f.checkExtensionLabel.Clean) :
    f.kind.isMap = false := by
  unfold Field.checkExtensionLabel at h
  split at h
  · exact absurd (clean_bind.mp h).1 (not_clean_report _)
  · rename_i hmap
    exact Bool.eq_false_iff.mpr hmap

theorem Links.extensions (hl : ctx.Links T) (hs : scope.IsUndotted) {e : Extend}
    (he : e.HasWords) (h : (ctx.extensions scope e).Clean) :
    ∀ d ∈ (ctx.extensions scope e).value, d.IsLinked T := by
  unfold Context.extensions at h ⊢
  rw [clean_bind, clean_each] at h
  rw [value_bind, value_each]
  intro d hd
  obtain ⟨f, hf, rfl⟩ := List.mem_map.mp hd
  have hclean := h.2 f hf
  simp only [clean_bind, clean_pure, and_true] at hclean
  have hno := not_map_of_checkExtensionLabel hclean.1
  have hfield := hl.field hs (he.fields f hf) (fun hm => by rw [hno] at hm; cases hm) hclean.2
  refine ⟨hfield.type, fun r hr => ?_⟩
  obtain rfl := Option.some.inj hr
  exact hl.messageType hs he.extendee h.1

/-! ### Entries of maps -/

/-- The keys of a map are of a type that is built in. -/
theorem isAmong_keyType (T : List (FullName × DefinitionKind)) (key : TypeUse) (span : Span) :
    ∀ t, (keyType key span).value = some t → t.IsAmong T := by
  intro t ht
  unfold keyType at ht
  split at ht
  · split at ht
    · obtain rfl := Option.some.inj ht
      exact trivial
    · cases ht
  · cases ht

theorem isLinked_entryField {name : String} {number : Int} {type : Option FieldType}
    (h : ∀ t, type = some t → t.IsAmong T) : (entryField name number type).IsLinked T :=
  ⟨h, fun r hr => by cases hr⟩

/-- The message that holds the entries of a map refers to the type of the values. -/
theorem Links.mapEntry? (hl : ctx.Links T) (hs : scope.IsUndotted) {f : Field}
    (hf : f.HasWords) (h : (ctx.mapEntry? scope f).Clean) :
    ∀ d ∈ fieldsAll scope (ctx.mapEntry? scope f).value.toList, d.IsLinked T := by
  unfold Context.mapEntry? at h ⊢
  have hwords := hf.kind
  split
  · intro d hd
    exact absurd hd List.not_mem_nil
  · rename_i key keySpan value valueSpan s hkind
    rw [hkind] at hwords
    simp only [hkind, clean_bind] at h
    have hkey : (entryField "key" 1 (keyType key keySpan).value).IsLinked T :=
      isLinked_entryField (isAmong_keyType T key keySpan)
    have hvalue : (entryField "value" 2 (some (ctx.fieldType scope value).value)).IsLinked T := by
      refine isLinked_entryField fun t ht => ?_
      obtain rfl := Option.some.inj ht
      exact hl.fieldType hs hwords h.2.1
    intro d hd
    simp only [value_bind, value_pure, Option.toList_some, fieldsAll_cons, List.append_nil] at hd
    rcases List.mem_append.mp hd with hd | hd
    · rcases List.mem_append.mp hd with hd | hd
      · rcases List.mem_cons.mp hd with rfl | hd
        · exact hkey
        · rw [List.mem_singleton.mp hd]
          exact hvalue
      · exact absurd hd List.not_mem_nil
    · exact absurd hd List.not_mem_nil

/-! ### Parts of messages -/

/-- The fields that parts of a message make up, for a message of some full name. -/
def MessageParts.allFields (scope : FullName) (p : MessageParts) : List FieldDescriptor :=
  p.fields.map Prod.snd ++ p.extensions ++ fieldsAll scope p.nested

theorem MessageParts.mem_allFields_append {p q : MessageParts} {d : FieldDescriptor}
    (h : d ∈ (p ++ q).allFields scope) : d ∈ p.allFields scope ∨ d ∈ q.allFields scope := by
  have happend : (p ++ q).allFields scope = (p.fields ++ q.fields).map Prod.snd ++
      (p.extensions ++ q.extensions) ++ fieldsAll scope (p.nested ++ q.nested) := rfl
  rw [happend, fieldsAll_append, List.map_append] at h
  simp only [allFields, List.mem_append] at h ⊢
  rcases h with ((h | h) | h | h) | h | h
  · exact Or.inl (Or.inl (Or.inl h))
  · exact Or.inr (Or.inl (Or.inl h))
  · exact Or.inl (Or.inl (Or.inr h))
  · exact Or.inr (Or.inl (Or.inr h))
  · exact Or.inl (Or.inr h)
  · exact Or.inr (Or.inr h)

/-- A field is linked however it is put into a oneof. -/
theorem Links.fieldParts (hl : ctx.Links T) (hs : scope.IsUndotted) {index : Nat} {f : Field}
    (hf : f.HasWords) (hT : declaredTypes (f.declared scope) ⊆ T)
    (h : (ctx.fieldParts scope index f).Clean) :
    ∀ d ∈ (ctx.fieldParts scope index f).value.allFields scope, d.IsLinked T := by
  have hmap : f.kind.isMap = true → (scope.child (mapEntryName f.name.text), .message) ∈ T := by
    intro hm
    refine hT ?_
    unfold Field.declared
    rw [hm]
    exact List.mem_singleton_self _
  unfold Context.fieldParts at h ⊢
  simp only [clean_bind] at h
  have hentry := hl.mapEntry? hs hf h.1
  have hfield := hl.field hs hf hmap h.2.2.1
  simp only [value_bind]
  split
  · intro d hd
    rcases List.mem_append.mp hd with hd | hd
    · obtain rfl := List.mem_singleton.mp hd
      exact ⟨hfield.type, hfield.extendee⟩
    · exact hentry d hd
  · intro d hd
    rcases List.mem_append.mp hd with hd | hd
    · obtain rfl := List.mem_singleton.mp hd
      exact hfield
    · exact hentry d hd

theorem Links.oneofParts (hl : ctx.Links T) (hs : scope.IsUndotted) {index : Nat} {o : Oneof}
    (ho : o.HasWords) (h : (ctx.oneofParts scope index o).Clean) :
    ∀ d ∈ (ctx.oneofParts scope index o).value.allFields scope, d.IsLinked T := by
  unfold Context.oneofParts at h ⊢
  simp only [clean_bind, clean_each, clean_pure, and_true] at h
  intro d hd
  simp only [value_bind, value_each, value_pure] at hd
  have hmem : d ∈ (o.fields.map fun f => (f, { (ctx.field scope f f.checkOneofLabel.value).value with
      oneofIndex := some index })).map Prod.snd := by
    simpa [MessageParts.allFields, MessageParts.empty, fieldsAll, walkAll] using hd
  obtain ⟨f, hf, rfl⟩ := List.mem_map.mp (List.map_map ▸ hmem)
  obtain ⟨hlabel, hfield⟩ := h.2.2 f hf
  have hno := Field.not_map_of_checkOneofLabel hlabel
  have hlinked := hl.field hs (ho f hf) (fun hm => by rw [hno] at hm; cases hm) hfield
  exact ⟨hlinked.type, hlinked.extendee⟩

/-- Closing a message adds no reference. -/
theorem fieldsAll_close (scope : FullName) (name : Ident) (parts : MessageParts)
    (options : List OptionStatement) (reserved : List Reserved) (extensions : List Extensions) :
    fieldsAll scope [(close name parts options reserved extensions).value] =
      parts.allFields (scope.child name.text) := by
  rw [fieldsAll_cons]
  exact List.append_nil _

/-! ### Whole messages -/

mutual

theorem Links.message (hl : ctx.Links T) (scope : FullName) (hs : scope.IsUndotted) :
    ∀ m : Message, m.HasWords → declaredTypes (m.declared scope) ⊆ T →
      (ctx.message scope m).Clean →
        ∀ d ∈ fieldsAll scope [(ctx.message scope m).value], d.IsLinked T
  | ⟨name, items, options, reserved, extensions, span⟩, hw, hT, h => by
      rw [Context.message, clean_bind] at h
      rw [Context.message, value_bind, fieldsAll_close]
      rw [Message.HasWords] at hw
      rw [Message.declared, declaredTypes_cons_of_type rfl] at hT
      exact hl.messageItems _ (hs.child (undotted_of_isWord hw.1)) 0 _ items hw.2
        (List.subset_of_cons_subset hT) h.1

theorem Links.messageItems (hl : ctx.Links T) (scope : FullName) (hs : scope.IsUndotted) :
    ∀ (oneofIndex presenceIndex : Nat) (items : List MessageItem), MessageItem.HaveWords items →
      declaredTypes (MessageItem.declaredAll scope items) ⊆ T →
      (ctx.messageItems scope oneofIndex presenceIndex items).Clean →
        ∀ d ∈ (ctx.messageItems scope oneofIndex presenceIndex items).value.allFields scope,
          d.IsLinked T
  | _, _, [], _, _, _, d, hd => absurd hd List.not_mem_nil
  | oneofIndex, presenceIndex, i :: is, hw, hT, h, d, hd => by
      rw [Context.messageItems] at h hd
      simp only [clean_bind, clean_pure, and_true] at h
      rw [MessageItem.HaveWords] at hw
      rw [MessageItem.declaredAll, declaredTypes_append, List.append_subset] at hT
      rcases MessageParts.mem_allFields_append hd with hd | hd
      · exact hl.messageItem scope hs oneofIndex presenceIndex i hw.1 hT.1 h.1 d hd
      · exact hl.messageItems scope hs _ _ is hw.2 hT.2 h.2 d hd

theorem Links.messageItem (hl : ctx.Links T) (scope : FullName) (hs : scope.IsUndotted)
    (oneofIndex presenceIndex : Nat) :
    ∀ i : MessageItem, i.HasWords → declaredTypes (i.declared scope) ⊆ T →
      (ctx.messageItem scope oneofIndex presenceIndex i).Clean →
        ∀ d ∈ (ctx.messageItem scope oneofIndex presenceIndex i).value.allFields scope,
          d.IsLinked T
  | .field f, hw, hT, h => by
      rw [Context.messageItem] at h ⊢
      rw [MessageItem.HasWords] at hw
      rw [MessageItem.declared] at hT
      exact hl.fieldParts hs hw hT h
  | .oneof o, hw, _, h => by
      rw [Context.messageItem] at h ⊢
      rw [MessageItem.HasWords] at hw
      exact hl.oneofParts hs hw h
  | .message m, hw, hT, h => by
      rw [Context.messageItem, clean_bind] at h
      rw [Context.messageItem]
      rw [MessageItem.HasWords] at hw
      rw [MessageItem.declared] at hT
      exact hl.message scope hs m hw hT h.1
  | .enum e, _, _, _ => by
      rw [Context.messageItem]
      exact fun d hd => absurd hd List.not_mem_nil
  | .extend e, hw, _, h => by
      rw [Context.messageItem, clean_bind] at h
      rw [Context.messageItem]
      rw [MessageItem.HasWords] at hw
      intro d hd
      refine hl.extensions hs hw h.1 d ?_
      simpa [MessageParts.allFields, MessageParts.empty, fieldsAll, walkAll] using hd

end

end Context

end ProtoSchema
