/-
The types of a descriptor are the declared types.

Two walks over a tree come up with full names.  One declares, before anything is checked; a
map field is declared there together with the message that holds its entries.  The other
assembles descriptors, and nests them; what a descriptor is called follows from where it
stands.  If nothing was reported both name the same types: the types of the descriptor are a
permutation of the declared ones, as a descriptor keeps its enums apart from its messages.

One report matters for this.  The members of a oneof are declared like all fields, but no
message is nested for a map among them.  So maps have to be ruled out there, and a map in a
oneof is reported.
-/
import ProtoSchema.Assembly.File
import ProtoSchema.Proofs.Linking.Symbols

namespace ProtoSchema

/-! ### Checks that find nothing -/

namespace Checked

variable {α β : Type}

/-- There is nothing to report. -/
def Clean (c : Checked α) : Prop := c.diagnostics = []

@[simp] theorem clean_pure (a : α) : (pure a : Checked α).Clean := rfl

@[simp] theorem clean_bind {c : Checked α} {f : α → Checked β} :
    (c >>= f).Clean ↔ c.Clean ∧ (f c.value).Clean := by
  unfold Clean
  rw [diagnostics_bind, List.append_eq_nil_iff]

@[simp] theorem clean_each {f : α → Checked β} {as : List α} :
    (each f as).Clean ↔ ∀ a ∈ as, (f a).Clean := by
  unfold Clean
  rw [diagnostics_each, List.flatMap_eq_nil_iff]

theorem not_clean_report (d : Diagnostic) : ¬(report d).Clean := fun h => by cases h

@[simp] theorem clean_reportIf {b : Bool} {d : Diagnostic} :
    (reportIf b d).Clean ↔ b = false := by
  unfold reportIf
  cases b with
  | true => simp [not_clean_report]
  | false => simp

end Checked

/-! ### The types of a descriptor -/

/-- An enum in a scope, with its full name. -/
def EnumDescriptor.type (scope : FullName) (e : EnumDescriptor) : FullName × DefinitionKind :=
  (scope.child e.name, .enum)

mutual

/-- A message in a scope and all messages within it, with their full names. -/
def MessageDescriptor.walk (scope : FullName) :
    MessageDescriptor → List (FullName × MessageDescriptor)
  | m@⟨name, _, _, nested, _, _, _, _, _, _⟩ =>
    (scope.child name, m) :: MessageDescriptor.walkAll (scope.child name) nested

/-- The messages in a scope and all messages within them. -/
def MessageDescriptor.walkAll (scope : FullName) :
    List MessageDescriptor → List (FullName × MessageDescriptor)
  | [] => []
  | m :: ms => MessageDescriptor.walk scope m ++ MessageDescriptor.walkAll scope ms

end

namespace MessageDescriptor

theorem walk_eq (scope : FullName) (m : MessageDescriptor) :
    m.walk scope = (scope.child m.name, m) :: walkAll (scope.child m.name) m.nested := by
  cases m
  rw [walk]

theorem walkAll_eq (scope : FullName) (ms : List MessageDescriptor) :
    walkAll scope ms = ms.flatMap (walk scope) := by
  induction ms with
  | nil => rfl
  | cons m ms ih => rw [walkAll, ih, List.flatMap_cons]

theorem walkAll_append (scope : FullName) (ms ns : List MessageDescriptor) :
    walkAll scope (ms ++ ns) = walkAll scope ms ++ walkAll scope ns := by
  rw [walkAll_eq, walkAll_eq, walkAll_eq, List.flatMap_append]

/-- A message of some full name, and the enums that it holds itself. -/
def ownTypes (m : FullName × MessageDescriptor) : List (FullName × DefinitionKind) :=
  (m.1, .message) :: m.2.enums.map (EnumDescriptor.type m.1)

/-- The types that messages in a scope make up, at any depth. -/
def typesAll (scope : FullName) (ms : List MessageDescriptor) :
    List (FullName × DefinitionKind) :=
  (walkAll scope ms).flatMap ownTypes

theorem typesAll_nil (scope : FullName) : typesAll scope [] = [] := rfl

theorem typesAll_append (scope : FullName) (ms ns : List MessageDescriptor) :
    typesAll scope (ms ++ ns) = typesAll scope ms ++ typesAll scope ns := by
  unfold typesAll
  rw [walkAll_append, List.flatMap_append]

theorem typesAll_cons (scope : FullName) (m : MessageDescriptor) (ms : List MessageDescriptor) :
    typesAll scope (m :: ms) = ownTypes (scope.child m.name, m) ++
      typesAll (scope.child m.name) m.nested ++ typesAll scope ms := by
  unfold typesAll
  rw [walkAll, walk_eq, List.flatMap_append, List.flatMap_cons]

end MessageDescriptor

namespace FileDescriptor

/-- The scope of the declarations of a file. -/
def scope (d : FileDescriptor) : FullName := d.package.getD .root

/-- All types of a file, at any depth, by their full names. -/
def types (d : FileDescriptor) : List (FullName × DefinitionKind) :=
  MessageDescriptor.typesAll d.scope d.messages ++ d.enums.map (EnumDescriptor.type d.scope)

end FileDescriptor

/-! ### The types of the parts of a message -/

/-- A field that is no map declares no type. -/
theorem Field.declaredTypes_of_not_map (scope : FullName) {f : Field} (h : f.kind.isMap = false) :
    declaredTypes (f.declared scope) = [] := by
  unfold Field.declared
  rw [h]
  rfl

theorem Extend.declaredTypes_eq (scope : FullName) (e : Extend) :
    declaredTypes (e.declared scope) = [] := by
  refine declaredTypes_eq_nil fun d hd => ?_
  obtain ⟨f, -, rfl⟩ := List.mem_map.mp hd
  rfl

theorem Enum.declaredTypes_eq (scope : FullName) (e : Enum) :
    declaredTypes (e.declared scope) = [(scope.child e.name.text, .enum)] := by
  unfold Enum.declared
  rw [declaredTypes_cons_of_type rfl, declaredTypes_eq_nil]
  · rfl
  · intro d hd
    obtain ⟨v, -, rfl⟩ := List.mem_map.mp hd
    rfl

namespace Context

open MessageDescriptor Checked

variable {ctx : Context} {scope : FullName}

/-- The types that parts of a message make up, for a message of some full name. -/
def MessageParts.types (scope : FullName) (p : MessageParts) : List (FullName × DefinitionKind) :=
  p.enums.map (EnumDescriptor.type scope) ++ typesAll scope p.nested

theorem MessageParts.types_append (scope : FullName) (p q : MessageParts) :
    ((p ++ q).types scope).Perm (p.types scope ++ q.types scope) := by
  show ((p.enums ++ q.enums).map _ ++ typesAll scope (p.nested ++ q.nested)).Perm _
  rw [List.map_append, typesAll_append]
  unfold types
  rw [List.append_assoc, List.append_assoc]
  refine List.Perm.append_left _ ?_
  rw [← List.append_assoc, ← List.append_assoc]
  exact List.perm_append_comm.append_right _

/-- A field contributes the message of its entries, if there is one. -/
theorem types_fieldParts (scope : FullName) (index : Nat) (f : Field) :
    (ctx.fieldParts scope index f).value.types scope = declaredTypes (f.declared scope) := by
  have hparts : (ctx.fieldParts scope index f).value.types scope =
      typesAll scope (ctx.mapEntry? scope f).value.toList := by
    unfold fieldParts
    simp only [Checked.value_bind]
    split <;> rfl
  rw [hparts]
  unfold Field.declared
  rw [declaredTypes_cons_of_not_type rfl]
  unfold mapEntry?
  split
  · rename_i heq
    rw [heq]
    rfl
  · rename_i heq
    rw [heq]
    rfl

theorem Field.not_map_of_checkOneofLabel {f : Field} (h : f.checkOneofLabel.Clean) :
    f.kind.isMap = false := by
  unfold Field.checkOneofLabel at h
  split at h
  · exact absurd (clean_bind.mp h).1 (not_clean_report _)
  · rename_i hmap
    exact Bool.eq_false_iff.mpr hmap

/-- A oneof contributes no type, as none of its members is a map. -/
theorem types_oneofParts {index : Nat} {o : Oneof} (h : (ctx.oneofParts scope index o).Clean) :
    (ctx.oneofParts scope index o).value.types scope = declaredTypes (o.declared scope) := by
  have hfields : ∀ f ∈ o.fields, f.kind.isMap = false := by
    intro f hf
    unfold oneofParts at h
    simp only [clean_bind, clean_each] at h
    exact Field.not_map_of_checkOneofLabel (h.2.2.1 f hf).1
  unfold Oneof.declared
  rw [declaredTypes_cons_of_not_type rfl, declaredTypes_flatMap]
  refine (List.flatMap_eq_nil_iff.mpr fun f hf => ?_).symm
  exact Field.declaredTypes_of_not_map scope (hfields f hf)

/-- A message adds its own name to the types of its parts. -/
theorem types_close (scope : FullName) (name : Ident) (parts : MessageParts)
    (options : List OptionStatement) (reserved : List Reserved) (extensions : List Extensions) :
    typesAll scope [(close name parts options reserved extensions).value] =
      (scope.child name.text, .message) :: parts.types (scope.child name.text) := by
  rw [typesAll_cons, typesAll_nil, List.append_nil]
  rfl

/-! ### The types of whole messages -/

mutual

theorem types_message (scope : FullName) :
    ∀ m : Message, (ctx.message scope m).Clean →
      (typesAll scope [(ctx.message scope m).value]).Perm (declaredTypes (m.declared scope))
  | ⟨name, items, options, reserved, extensions, span⟩, h => by
      rw [message, clean_bind] at h
      rw [message, Checked.value_bind, types_close, Message.declared,
        declaredTypes_cons_of_type rfl]
      exact (types_messageItems (scope.child name.text) 0 _ items h.1).cons _

theorem types_messageItems (scope : FullName) :
    ∀ (oneofIndex presenceIndex : Nat) (items : List MessageItem),
      (ctx.messageItems scope oneofIndex presenceIndex items).Clean →
        ((ctx.messageItems scope oneofIndex presenceIndex items).value.types scope).Perm
          (declaredTypes (MessageItem.declaredAll scope items))
  | _, _, [], _ => .refl _
  | oneofIndex, presenceIndex, i :: is, h => by
      rw [messageItems] at h ⊢
      simp only [clean_bind, clean_pure, and_true] at h
      rw [MessageItem.declaredAll, declaredTypes_append]
      refine (MessageParts.types_append scope _ _).trans (.append ?_ ?_)
      · exact types_messageItem scope oneofIndex presenceIndex i h.1
      · exact types_messageItems scope _ _ is h.2

theorem types_messageItem (scope : FullName) (oneofIndex presenceIndex : Nat) :
    ∀ i : MessageItem, (ctx.messageItem scope oneofIndex presenceIndex i).Clean →
      ((ctx.messageItem scope oneofIndex presenceIndex i).value.types scope).Perm
        (declaredTypes (i.declared scope))
  | .field f, _ => by
      rw [messageItem, MessageItem.declared, types_fieldParts]
  | .oneof o, h => by
      rw [messageItem] at h
      rw [messageItem, MessageItem.declared, types_oneofParts h]
  | .message m, h => by
      rw [messageItem, clean_bind] at h
      rw [messageItem, MessageItem.declared]
      exact types_message scope m h.1
  | .enum e, _ => by
      rw [messageItem, MessageItem.declared, Enum.declaredTypes_eq]
      exact .refl _
  | .extend e, _ => by
      rw [messageItem, MessageItem.declared, Extend.declaredTypes_eq]
      exact .refl _

end

/-- The messages in a scope and everything within them. -/
theorem types_messages (ctx : Context) (scope : FullName) (ms : List Message)
    (h : ∀ m ∈ ms, (ctx.message scope m).Clean) :
    (typesAll scope (ms.map fun m => (ctx.message scope m).value)).Perm
      (declaredTypes (ms.flatMap (Message.declared scope))) := by
  induction ms with
  | nil => exact .refl _
  | cons m ms ih =>
      rw [List.map_cons, List.flatMap_cons, declaredTypes_append, ← List.singleton_append,
        typesAll_append]
      refine .append (types_message scope m (h m List.mem_cons_self)) (ih ?_)
      exact fun m' hm' => h m' (List.mem_cons_of_mem m hm')

end Context

/-! ### The types of a file -/

theorem declaredTypes_packagesFrom (span : Span) (scope : FullName) (names : List String) :
    declaredTypes (packagesFrom span scope names) = [] := by
  induction names generalizing scope with
  | nil => rfl
  | cons n ns ih =>
      unfold packagesFrom
      rw [declaredTypes_cons_of_not_type rfl]
      exact ih _

theorem Service.declaredTypes_eq (scope : FullName) (s : Service) :
    declaredTypes (s.declared scope) = [] := by
  unfold Service.declared
  rw [declaredTypes_cons_of_not_type rfl]
  refine declaredTypes_eq_nil fun d hd => ?_
  obtain ⟨m, -, rfl⟩ := List.mem_map.mp hd
  rfl

/-- Only messages and enums declare types. -/
theorem File.declaredTypes_eq (file : File) :
    declaredTypes file.declared =
      declaredTypes (file.messages.flatMap (Message.declared (Package.scope file.package))) ++
        file.enums.map fun e => ((Package.scope file.package).child e.name.text, .enum) := by
  have henums : declaredTypes (file.enums.flatMap (Enum.declared (Package.scope file.package))) =
      file.enums.map fun e => ((Package.scope file.package).child e.name.text, .enum) := by
    rw [declaredTypes_flatMap, List.map_eq_flatMap]
    simp only [Enum.declaredTypes_eq]
  have hpackage : declaredTypes (file.package.toList.flatMap Package.declared) = [] := by
    rw [declaredTypes_flatMap]
    exact List.flatMap_eq_nil_iff.mpr fun p _ => declaredTypes_packagesFrom _ _ _
  have hextends : declaredTypes
      (file.extendBlocks.flatMap (Extend.declared (Package.scope file.package))) = [] := by
    rw [declaredTypes_flatMap]
    exact List.flatMap_eq_nil_iff.mpr fun e _ => Extend.declaredTypes_eq _ e
  have hservices : declaredTypes
      (file.services.flatMap (Service.declared (Package.scope file.package))) = [] := by
    rw [declaredTypes_flatMap]
    exact List.flatMap_eq_nil_iff.mpr fun s _ => Service.declaredTypes_eq _ s
  unfold File.declared
  simp only [declaredTypes_append, henums, hpackage, hextends, hservices, List.nil_append,
    List.append_nil]

theorem File.scope_describe (file : File) (name : String) (symbols : SymbolTable) :
    (file.describe name symbols).value.scope = Package.scope file.package := by
  unfold FileDescriptor.scope File.describe
  cases file.package with
  | none => rfl
  | some p => rfl

/-- **The types of the descriptor of a file are the types that the file declares.** -/
theorem File.types_describe {file : File} {name : String} {symbols : SymbolTable}
    (h : (file.describe name symbols).Clean) :
    (file.describe name symbols).value.types.Perm (declaredTypes file.declared) := by
  unfold FileDescriptor.types
  rw [File.scope_describe, File.declaredTypes_eq]
  simp only [File.describe, Checked.clean_bind, Checked.clean_each] at h
  have hmessages := (file.context symbols).types_messages
    (Package.scope file.package) file.messages h.1
  unfold File.describe
  simp only [Checked.value_bind, Checked.value_each, Checked.value_pure, List.map_map]
  exact hmessages.append (.refl _)

end ProtoSchema
