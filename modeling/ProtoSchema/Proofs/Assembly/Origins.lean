/-
Where the parts of a descriptor come from.

Every part of the descriptor of a file was made from a declaration that the file holds, at some
depth, in the scope of that declaration.  Messages come from two kinds of declarations: a map field
stands for the message of its entries.  Fields come from three: members of messages, fields of
extend blocks, and map fields, whose entries have a key and a value.

So whatever is to hold everywhere in a descriptor needs to be shown of these declarations only,
each on its own.
-/
import ProtoSchema.Proofs.Assembly.Members
import ProtoSchema.Proofs.Linking.Closed

namespace ProtoSchema

open Checked

/-- The extensions that a file declares, at any depth. -/
def FileDescriptor.allExtensions (d : FileDescriptor) : List FieldDescriptor :=
  (MessageDescriptor.walkAll d.scope d.messages).flatMap (·.2.extensions) ++ d.extensions

/-! ### What items contribute beside fields -/

namespace Context

variable (ctx : Context) (scope : FullName)

/-- The messages that an item contributes to the message that is its scope. -/
def nestedOf : MessageItem → List MessageDescriptor
  | .field f => (ctx.mapEntry? scope f).value.toList
  | .message m => [(ctx.message scope m).value]
  | _ => []

/-- The enums that an item contributes. -/
def enumsOf : MessageItem → List EnumDescriptor
  | .enum e => [(ctx.enum e).value]
  | _ => []

/-- The extensions that an item contributes. -/
def extensionsOf : MessageItem → List FieldDescriptor
  | .extend e => (ctx.extensions scope e).value
  | _ => []

theorem contents_messageItem (place next : Nat) (i : MessageItem) :
    (ctx.messageItem scope place next i).value.nested = ctx.nestedOf scope i ∧
      (ctx.messageItem scope place next i).value.enums = ctx.enumsOf i ∧
      (ctx.messageItem scope place next i).value.extensions = ctx.extensionsOf scope i := by
  cases i with
  | field f =>
      rw [messageItem]
      unfold fieldParts
      simp only [value_bind]
      split
      · exact ⟨rfl, rfl, rfl⟩
      · exact ⟨rfl, rfl, rfl⟩
  | oneof o => rw [messageItem]; exact ⟨rfl, rfl, rfl⟩
  | message m => rw [messageItem]; exact ⟨rfl, rfl, rfl⟩
  | enum e => rw [messageItem]; exact ⟨rfl, rfl, rfl⟩
  | extend e => rw [messageItem]; exact ⟨rfl, rfl, rfl⟩

theorem contents_messageItems (items : List MessageItem) : ∀ place next : Nat,
    (ctx.messageItems scope place next items).value.nested =
        items.flatMap (ctx.nestedOf scope) ∧
      (ctx.messageItems scope place next items).value.enums = items.flatMap ctx.enumsOf ∧
      (ctx.messageItems scope place next items).value.extensions =
        items.flatMap (ctx.extensionsOf scope) := by
  induction items with
  | nil => intro place next; exact ⟨rfl, rfl, rfl⟩
  | cons i is ih =>
      intro place next
      obtain ⟨hnested, henums, hextensions⟩ := ctx.contents_messageItem scope place next i
      rw [messageItems, List.flatMap_cons, List.flatMap_cons, List.flatMap_cons]
      simp only [value_bind, value_pure]
      obtain ⟨hnested', henums', hextensions'⟩ := ih
        (place + (ctx.messageItem scope place next i).value.oneofs.length)
        (next + (ctx.messageItem scope place next i).value.presence.length)
      refine ⟨?_, ?_, ?_⟩
      · exact congrArg₂ (· ++ ·) hnested hnested'
      · exact congrArg₂ (· ++ ·) henums henums'
      · exact congrArg₂ (· ++ ·) hextensions hextensions'

/-- Messages, enums and extensions of a message are those of its items, in order. -/
theorem contents_message (m : Message) :
    (ctx.message scope m).value.nested =
        m.items.flatMap (ctx.nestedOf (scope.child m.name.text)) ∧
      (ctx.message scope m).value.enums = m.items.flatMap ctx.enumsOf ∧
      (ctx.message scope m).value.extensions =
        m.items.flatMap (ctx.extensionsOf (scope.child m.name.text)) := by
  rw [message_eq]
  exact ctx.contents_messageItems (scope.child m.name.text) m.items 0 _

/-- The descriptor of an extension in a block that stands in a scope. -/
def extension (e : Extend) (f : Field) : FieldDescriptor :=
  { (ctx.field scope f f.checkExtensionLabel.value).value with
    extendee := some (ctx.messageType scope e.extendee).value }

theorem value_extensions (e : Extend) :
    (ctx.extensions scope e).value = e.fields.map (ctx.extension scope e) := by
  unfold extensions
  simp only [value_bind, value_each, value_pure]
  rfl

end Context

/-! ### Messages and enums -/

namespace File

open Context

variable {file : File} {ctx : Context} {name : String} {symbols : SymbolTable} {n : FullName}

/-- A message descriptor that a declaration of the file stands for, with its full name. -/
inductive GivesMessage (file : File) (ctx : Context) : FullName → MessageDescriptor → Prop
  | message {scope : FullName} {m : Message} : file.Holds scope (.message m) →
      GivesMessage file ctx (scope.child m.name.text) (ctx.message scope m).value
  | entry {scope : FullName} {f : Field} {d : MessageDescriptor} : file.Holds scope (.field f) →
      (ctx.mapEntry? scope f).value = some d → GivesMessage file ctx (scope.child d.name) d

/-- The message of the entries of a map holds nothing else. -/
theorem contents_entry {scope : FullName} {f : Field} {d : MessageDescriptor}
    (h : (ctx.mapEntry? scope f).value = some d) :
    d.nested = [] ∧ d.enums = [] ∧ d.extensions = [] := by
  unfold mapEntry? at h
  split at h
  · cases h
  · obtain rfl := Option.some.inj h
    exact ⟨rfl, rfl, rfl⟩

mutual

theorem gives_message (ctx : Context) (scope : FullName) :
    (m : Message) → file.Holds scope (.message m) →
      ∀ p ∈ (ctx.message scope m).value.walk scope, file.GivesMessage ctx p.1 p.2
  | ⟨name, items, options, reserved, extensions, span⟩ => by
      intro h p hp
      rw [MessageDescriptor.walk_eq, name_message, (ctx.contents_message scope _).1] at hp
      rcases List.mem_cons.mp hp with rfl | hp
      · exact .message h
      · exact gives_items ctx (scope.child name.text) items (fun i hi => .within h hi) p hp

theorem gives_items (ctx : Context) (scope : FullName) :
    (items : List MessageItem) → (∀ i ∈ items, file.Holds scope i) →
      ∀ p ∈ MessageDescriptor.walkAll scope (items.flatMap (ctx.nestedOf scope)),
        file.GivesMessage ctx p.1 p.2
  | [] => fun _ p hp => absurd hp List.not_mem_nil
  | i :: is => by
      intro h p hp
      rw [List.flatMap_cons, MessageDescriptor.walkAll_append] at hp
      rcases List.mem_append.mp hp with hp | hp
      · exact gives_item ctx scope i (h i List.mem_cons_self) p hp
      · exact gives_items ctx scope is (fun j hj => h j (List.mem_cons_of_mem i hj)) p hp

theorem gives_item (ctx : Context) (scope : FullName) :
    (i : MessageItem) → file.Holds scope i →
      ∀ p ∈ MessageDescriptor.walkAll scope (ctx.nestedOf scope i), file.GivesMessage ctx p.1 p.2
  | .message m => by
      intro h p hp
      rw [nestedOf, MessageDescriptor.walkAll, MessageDescriptor.walkAll, List.append_nil] at hp
      exact gives_message ctx scope m h p hp
  | .field f => by
      intro h p hp
      rw [nestedOf] at hp
      cases hentry : (ctx.mapEntry? scope f).value with
      | none =>
          rw [hentry] at hp
          cases hp
      | some d =>
          rw [hentry, Option.toList_some, MessageDescriptor.walkAll, MessageDescriptor.walkAll,
            List.append_nil, MessageDescriptor.walk_eq, (contents_entry hentry).1,
            MessageDescriptor.walkAll, List.mem_singleton] at hp
          obtain rfl := hp
          exact .entry h hentry
  | .oneof _ => fun _ p hp => absurd hp List.not_mem_nil
  | .enum _ => fun _ p hp => absurd hp List.not_mem_nil
  | .extend _ => fun _ p hp => absurd hp List.not_mem_nil

end

/-- **Every message of a descriptor is of a message that the file holds, or of map entries.** -/
theorem gives_of_hasMessage {d : MessageDescriptor}
    (h : (file.describe name symbols).value.HasMessage n d) :
    file.GivesMessage (file.context symbols) n d := by
  unfold FileDescriptor.HasMessage at h
  rw [scope_describe, messages_describe, MessageDescriptor.walkAll_eq, List.mem_flatMap] at h
  obtain ⟨_, hmem, hp⟩ := h
  obtain ⟨m, hm, rfl⟩ := List.mem_map.mp hmem
  exact gives_message _ _ m (.message hm) _ hp

/-- Every enum of a descriptor is of an enum that the file holds. -/
theorem holds_of_hasEnum {e : EnumDescriptor}
    (h : (file.describe name symbols).value.HasEnum n e) :
    ∃ declared, file.Holds n (.enum declared) ∧
      e = ((file.context symbols).enum declared).value := by
  rcases h with ⟨rfl, he⟩ | ⟨d, hd, he⟩
  · unfold File.describe at he
    simp only [Checked.value_bind, Checked.value_each, Checked.value_pure] at he
    obtain ⟨declared, hmem, rfl⟩ := List.mem_map.mp he
    rw [scope_describe]
    exact ⟨declared, .enum hmem, rfl⟩
  · cases gives_of_hasMessage hd with
    | @message scope m hm =>
        rw [((file.context symbols).contents_message scope m).2.1, List.mem_flatMap] at he
        obtain ⟨i, hi, he⟩ := he
        cases i with
        | enum declared =>
            obtain rfl := List.mem_singleton.mp he
            exact ⟨declared, .within hm hi, rfl⟩
        | field f => cases he
        | oneof o => cases he
        | message m => cases he
        | extend e => cases he
    | entry hf hentry =>
        rw [(contents_entry hentry).2.1] at he
        cases he

/-! ### Fields -/

/-- A field descriptor that a declaration of the file stands for. -/
inductive GivesField (file : File) (ctx : Context) : FieldDescriptor → Prop
  | member {scope : FullName} {m : Message} {k : Nat} {x : Member} :
      file.Holds scope (.message m) → m.fieldMembers[k]? = some x →
        GivesField file ctx
          (ctx.memberAt (scope.child m.name.text) x (m.oneofIndex ctx.dialect k x))
  | extension {scope : FullName} {e : Extend} {f : Field} : file.Holds scope (.extend e) →
      f ∈ e.fields → GivesField file ctx (ctx.extension scope e f)
  | entry {scope : FullName} {f : Field} {d : MessageDescriptor} {field : FieldDescriptor} :
      file.Holds scope (.field f) → (ctx.mapEntry? scope f).value = some d → field ∈ d.fields →
        GivesField file ctx field

theorem gives_of_mem_fields {d : MessageDescriptor} (h : file.GivesMessage ctx n d)
    {f : FieldDescriptor} (hf : f ∈ d.fields) : file.GivesField ctx f := by
  cases h with
  | @message scope m hm =>
      obtain ⟨k, hk⟩ := List.mem_iff_getElem?.mp hf
      rw [(ctx.assembles_message scope m).fields, List.getElem?_mapIdx,
        Option.map_eq_some_iff] at hk
      obtain ⟨x, hx, rfl⟩ := hk
      exact .member hm hx
  | entry hfield hentry => exact .entry hfield hentry hf

/-- An extension descriptor that a field of an extend block of the file stands for. -/
def GivesExtension (file : File) (ctx : Context) (f : FieldDescriptor) : Prop :=
  ∃ scope e, file.Holds scope (.extend e) ∧ ∃ field ∈ e.fields, f = ctx.extension scope e field

theorem GivesExtension.gives {f : FieldDescriptor} (h : file.GivesExtension ctx f) :
    file.GivesField ctx f := by
  obtain ⟨scope, e, he, field, hfield, rfl⟩ := h
  exact .extension he hfield

theorem gives_of_mem_extensions {d : MessageDescriptor} (h : file.GivesMessage ctx n d)
    {f : FieldDescriptor} (hf : f ∈ d.extensions) : file.GivesExtension ctx f := by
  cases h with
  | @message scope m hm =>
      rw [(ctx.contents_message scope m).2.2, List.mem_flatMap] at hf
      obtain ⟨i, hi, hf⟩ := hf
      cases i with
      | extend e =>
          rw [extensionsOf, value_extensions] at hf
          obtain ⟨field, hfield, rfl⟩ := List.mem_map.mp hf
          exact ⟨_, e, .within hm hi, field, hfield, rfl⟩
      | field f => cases hf
      | oneof o => cases hf
      | message m => cases hf
      | enum e => cases hf
  | entry hfield hentry =>
      rw [(contents_entry hentry).2.2] at hf
      cases hf

theorem gives_of_mem_outerExtensions {f : FieldDescriptor}
    (hf : f ∈ (file.describe name symbols).value.extensions) :
    file.GivesExtension (file.context symbols) f := by
  unfold File.describe at hf
  simp only [Checked.value_bind, Checked.value_each, Checked.value_pure] at hf
  obtain ⟨_, hmem, hf⟩ := List.mem_flatten.mp hf
  obtain ⟨e, he, rfl⟩ := List.mem_map.mp hmem
  rw [value_extensions] at hf
  obtain ⟨field, hfield, rfl⟩ := List.mem_map.mp hf
  exact ⟨_, e, .extend he, field, hfield, rfl⟩

/-- **Every field of a descriptor is of a member, of an extension, or of map entries.** -/
theorem gives_of_mem_allFields {f : FieldDescriptor}
    (h : f ∈ (file.describe name symbols).value.allFields) :
    file.GivesField (file.context symbols) f := by
  rcases List.mem_append.mp h with h | h
  · obtain ⟨p, hp, hf⟩ := List.mem_flatMap.mp h
    have hmessage : (file.describe name symbols).value.HasMessage p.1 p.2 := hp
    have hgives := gives_of_hasMessage hmessage
    rcases List.mem_append.mp hf with hf | hf
    · exact gives_of_mem_fields hgives hf
    · exact (gives_of_mem_extensions hgives hf).gives
  · exact (gives_of_mem_outerExtensions h).gives

/-- Every extension of a descriptor is of a field of an extend block. -/
theorem gives_of_mem_allExtensions {f : FieldDescriptor}
    (h : f ∈ (file.describe name symbols).value.allExtensions) :
    file.GivesExtension (file.context symbols) f := by
  rcases List.mem_append.mp h with h | h
  · obtain ⟨p, hp, hf⟩ := List.mem_flatMap.mp h
    have hmessage : (file.describe name symbols).value.HasMessage p.1 p.2 := hp
    exact gives_of_mem_extensions (gives_of_hasMessage hmessage) hf
  · exact gives_of_mem_outerExtensions h

end File

end ProtoSchema
