/-
Descriptors of trees at other places.

A descriptor says nothing about layout, with one exception: a reference that could not be
resolved is kept as it was written, and so with its place.  Ranges and reservations keep their
places only while a declaration is checked.
-/
import ProtoSchema.Assembly.File
import ProtoSchema.Proofs.Relocation.Stays

namespace ProtoSchema

/-! ### References and declarations -/

def TypeRef.moved (m : Relocation) : TypeRef → TypeRef
  | resolved name => .resolved name
  | written name => .written (name.moved m)

def FieldType.moved (m : Relocation) : FieldType → FieldType
  | scalar s => .scalar s
  | message name => .message name
  | enum name => .enum name
  | unknown name => .unknown (name.moved m)

def FieldDescriptor.moved (m : Relocation) (d : FieldDescriptor) : FieldDescriptor :=
  { d with
    type := d.type.map (FieldType.moved m)
    extendee := d.extendee.map (TypeRef.moved m) }

mutual

def MessageDescriptor.moved (m : Relocation) : MessageDescriptor → MessageDescriptor
  | ⟨name, fields, extensions, nested, enums, ranges, oneofs, options, reserved, names⟩ =>
    ⟨name, fields.map (FieldDescriptor.moved m), extensions.map (FieldDescriptor.moved m),
      MessageDescriptor.movedAll m nested, enums, ranges, oneofs, options, reserved, names⟩

def MessageDescriptor.movedAll (m : Relocation) : List MessageDescriptor → List MessageDescriptor
  | [] => []
  | d :: ds => MessageDescriptor.moved m d :: MessageDescriptor.movedAll m ds

end

theorem MessageDescriptor.movedAll_eq (m : Relocation) (ds : List MessageDescriptor) :
    MessageDescriptor.movedAll m ds = ds.map (MessageDescriptor.moved m) := by
  induction ds with
  | nil => rfl
  | cons d ds ih => rw [MessageDescriptor.movedAll, ih, List.map_cons]

def MethodDescriptor.moved (m : Relocation) (d : MethodDescriptor) : MethodDescriptor :=
  { d with input := d.input.moved m, output := d.output.moved m }

def ServiceDescriptor.moved (m : Relocation) (d : ServiceDescriptor) : ServiceDescriptor :=
  { d with methods := d.methods.map (MethodDescriptor.moved m) }

/-- A descriptor with the references that it keeps as they were written at another place. -/
def FileDescriptor.moved (m : Relocation) (d : FileDescriptor) : FileDescriptor :=
  { d with
    messages := d.messages.map (MessageDescriptor.moved m)
    services := d.services.map (ServiceDescriptor.moved m)
    extensions := d.extensions.map (FieldDescriptor.moved m) }

/-! ### Parts of a check -/

def CheckedRange.moved (m : Relocation) (r : CheckedRange) : CheckedRange :=
  { r with span := r.span.moved m }

def Reservations.moved (m : Relocation) (r : Reservations) : Reservations :=
  ⟨r.ranges.map (CheckedRange.moved m), r.names.map (Ident.moved m)⟩

def OptionReading.moved {κ : Type} (m : Relocation) (r : OptionReading κ) : OptionReading κ :=
  { r with deferred := r.deferred.map fun d => (d.1, d.2.moved m) }

def Context.FieldOptions.moved (m : Relocation) (o : Context.FieldOptions) :
    Context.FieldOptions :=
  { o with default := o.default.map (OptionSetting.moved m) }

def Context.MessageParts.moved (m : Relocation) (p : Context.MessageParts) :
    Context.MessageParts :=
  { p with
    fields := p.fields.map fun f => (f.1.moved m, f.2.moved m)
    extensions := p.extensions.map (FieldDescriptor.moved m)
    nested := p.nested.map (MessageDescriptor.moved m) }

/-! ### Staying and moving twice -/

theorem TypeName.moved_moved (m n : Relocation) (t : TypeName) :
    (t.moved m).moved n = t.moved (m.followedBy n) := by
  obtain ⟨dot, first, rest⟩ := t
  simp [TypeName.moved, DottedName.moved, Ident.moved, Span.moved_moved, Function.comp_def]

theorem TypeRef.moved_moved (m n : Relocation) (r : TypeRef) :
    (r.moved m).moved n = r.moved (m.followedBy n) := by
  cases r with
  | resolved name => rfl
  | written name => exact congrArg TypeRef.written (name.moved_moved m n)

theorem FieldType.moved_moved (m n : Relocation) (t : FieldType) :
    (t.moved m).moved n = t.moved (m.followedBy n) := by
  cases t with
  | unknown name => exact congrArg FieldType.unknown (name.moved_moved m n)
  | _ => rfl

theorem FieldDescriptor.moved_moved (m n : Relocation) (d : FieldDescriptor) :
    (d.moved m).moved n = d.moved (m.followedBy n) := by
  simp [FieldDescriptor.moved, Function.comp_def, FieldType.moved_moved, TypeRef.moved_moved]

mutual

theorem MessageDescriptor.moved_moved (m n : Relocation) : (d : MessageDescriptor) →
    (d.moved m).moved n = d.moved (m.followedBy n)
  | ⟨_, _, _, nested, _, _, _, _, _, _⟩ => by
    simp only [MessageDescriptor.moved, MessageDescriptor.movedAll_movedAll m n nested,
      List.map_map, Function.comp_def, FieldDescriptor.moved_moved]

theorem MessageDescriptor.movedAll_movedAll (m n : Relocation) : (ds : List MessageDescriptor) →
    MessageDescriptor.movedAll n (MessageDescriptor.movedAll m ds) =
      MessageDescriptor.movedAll (m.followedBy n) ds
  | [] => rfl
  | d :: ds => by
    rw [MessageDescriptor.movedAll, MessageDescriptor.movedAll, MessageDescriptor.movedAll,
      MessageDescriptor.moved_moved m n d, MessageDescriptor.movedAll_movedAll m n ds]

end

theorem FileDescriptor.moved_moved (m n : Relocation) (d : FileDescriptor) :
    (d.moved m).moved n = d.moved (m.followedBy n) := by
  simp [FileDescriptor.moved, ServiceDescriptor.moved, MethodDescriptor.moved, Function.comp_def,
    FieldDescriptor.moved_moved, TypeRef.moved_moved, MessageDescriptor.moved_moved]

namespace Relocation.Stays

variable {m : Relocation}

theorem typeRef (h : m.Stays) (r : TypeRef) : r.moved m = r := by
  cases r with
  | resolved name => rfl
  | written name => rw [TypeRef.moved, h.typeName]

theorem fieldDescriptor (h : m.Stays) (d : FieldDescriptor) : d.moved m = d := by
  have htype : d.type.map (FieldType.moved m) = d.type := by
    refine option_map_eq_self fun t => ?_
    cases t with
    | unknown name => rw [FieldType.moved, h.typeName]
    | _ => rfl
  rw [FieldDescriptor.moved, htype, option_map_eq_self h.typeRef]

mutual

theorem messageDescriptor (h : m.Stays) : (d : MessageDescriptor) → d.moved m = d
  | ⟨_, _, _, nested, _, _, _, _, _, _⟩ => by
    rw [MessageDescriptor.moved, messageDescriptors h nested,
      map_eq_self fun d _ => h.fieldDescriptor d, map_eq_self fun d _ => h.fieldDescriptor d]

theorem messageDescriptors (h : m.Stays) : (ds : List MessageDescriptor) →
    MessageDescriptor.movedAll m ds = ds
  | [] => rfl
  | d :: ds => by
    rw [MessageDescriptor.movedAll, messageDescriptor h d, messageDescriptors h ds]

end

theorem serviceDescriptor (h : m.Stays) (d : ServiceDescriptor) : d.moved m = d := by
  rw [ServiceDescriptor.moved, map_eq_self fun r _ => by
    rw [MethodDescriptor.moved, h.typeRef, h.typeRef]]

theorem fileDescriptor (h : m.Stays) (d : FileDescriptor) : d.moved m = d := by
  rw [FileDescriptor.moved, map_eq_self fun d _ => h.messageDescriptor d,
    map_eq_self fun d _ => h.serviceDescriptor d, map_eq_self fun d _ => h.fieldDescriptor d]

end Relocation.Stays

end ProtoSchema
