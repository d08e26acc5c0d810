/-
Trees that stay as they are.

Two things in a tree change with a relocation: places, and the text of blocks.  So a
relocation that changes no place leaves a tree as it is, if it leaves the values of all options
in it as they are; it does so if there are no blocks among them.  `File.settings` finds the
options of a file, wherever they are set.
-/
import ProtoSchema.Proofs.Relocation.Tree

namespace ProtoSchema

/-! ### The options of a file -/

/-- Whether a value is a block in braces. -/
def OptionValue.isBlock : OptionValue → Bool
  | aggregate .. => true
  | _ => false

def Field.settings (f : Field) : List OptionSetting := OptionList.settingsOf f.options

def Extensions.settings (e : Extensions) : List OptionSetting := OptionList.settingsOf e.options

def Oneof.settings (o : Oneof) : List OptionSetting :=
  o.options.map OptionStatement.setting ++ o.fields.flatMap Field.settings

def Extend.settings (e : Extend) : List OptionSetting := e.fields.flatMap Field.settings

def EnumValue.settings (v : EnumValue) : List OptionSetting := OptionList.settingsOf v.options

def Enum.settings (e : Enum) : List OptionSetting :=
  e.options.map OptionStatement.setting ++ e.values.flatMap EnumValue.settings

def Method.settings (r : Method) : List OptionSetting := r.options.map OptionStatement.setting

def Service.settings (s : Service) : List OptionSetting :=
  s.options.map OptionStatement.setting ++ s.methods.flatMap Method.settings

mutual

def Message.settings : Message → List OptionSetting
  | ⟨_, items, options, _, extensions, _⟩ =>
    MessageItem.settingsAll items ++ options.map OptionStatement.setting ++
      extensions.flatMap Extensions.settings

def MessageItem.settingsAll : List MessageItem → List OptionSetting
  | [] => []
  | i :: is => MessageItem.settings i ++ MessageItem.settingsAll is

def MessageItem.settings : MessageItem → List OptionSetting
  | .field f => f.settings
  | .oneof o => o.settings
  | .message d => Message.settings d
  | .enum e => e.settings
  | .extend e => e.settings

end

/-- All options that are set in a file, in whatever declaration. -/
def File.settings (f : File) : List OptionSetting :=
  f.options.map OptionStatement.setting ++ f.messages.flatMap Message.settings ++
    f.enums.flatMap Enum.settings ++ f.extendBlocks.flatMap Extend.settings ++
    f.services.flatMap Service.settings

/-! ### Relocations that move nothing -/

namespace Relocation

variable {m : Relocation}

/-- The values of some options are left as they are. -/
def Keeps (m : Relocation) (os : List OptionSetting) : Prop := ∀ o ∈ os, o.value.moved m = o.value

theorem Keeps.append_left {os ps : List OptionSetting} (h : m.Keeps (os ++ ps)) : m.Keeps os :=
  fun o ho => h o (List.mem_append_left ps ho)

theorem Keeps.append_right {os ps : List OptionSetting} (h : m.Keeps (os ++ ps)) : m.Keeps ps :=
  fun o ho => h o (List.mem_append_right os ho)

theorem Keeps.of_mem {α : Type} {f : α → List OptionSetting} {as : List α}
    (h : m.Keeps (as.flatMap f)) {a : α} (ha : a ∈ as) : m.Keeps (f a) :=
  fun o ho => h o (List.mem_flatMap_of_mem ha ho)

theorem map_eq_self {α : Type} {f : α → α} {as : List α} (h : ∀ a ∈ as, f a = a) :
    as.map f = as := (List.map_congr_left h).trans (List.map_id as)

theorem option_map_eq_self {α : Type} {f : α → α} {a? : Option α} (h : ∀ a, f a = a) :
    a?.map f = a? := by
  cases a? with
  | none => rfl
  | some a => rw [Option.map_some, h]

namespace Stays

variable (h : m.Stays)

include h

/-- A value that is no block is kept. -/
theorem value {v : OptionValue} (hv : v.isBlock = false) : v.moved m = v := by
  cases v with
  | aggregate text s => cases hv
  | _ => simp only [OptionValue.moved, Ident.moved, IntLiteral.moved, StringLiteral.moved, h.span]

theorem keeps {os : List OptionSetting} (hos : ∀ o ∈ os, o.value.isBlock = false) : m.Keeps os :=
  fun o ho => h.value (hos o ho)

theorem ident (n : Ident) : n.moved m = n := by
  rw [Ident.moved, h.span]

theorem dottedName (n : DottedName) : n.moved m = n := by
  rw [DottedName.moved, h.ident, map_eq_self fun i _ => h.ident i]

theorem typeName (n : TypeName) : n.moved m = n := by
  rw [TypeName.moved, option_map_eq_self h.span, h.dottedName]

theorem integer (n : IntLiteral) : n.moved m = n := by
  rw [IntLiteral.moved, h.span]

theorem namePart (p : OptionNamePart) : p.moved m = p := by
  cases p with
  | ident n => rw [OptionNamePart.moved, h.ident]
  | extension n s => rw [OptionNamePart.moved, h.typeName, h.span]

theorem setting {o : OptionSetting} (ho : o.value.moved m = o.value) : o.moved m = o := by
  rw [OptionSetting.moved, h.namePart, map_eq_self fun p _ => h.namePart p, ho]

theorem statements {os : List OptionStatement} (ho : m.Keeps (os.map OptionStatement.setting)) :
    os.map (OptionStatement.moved m) = os := by
  refine map_eq_self fun o hmem => ?_
  rw [OptionStatement.moved, h.setting (ho _ (List.mem_map_of_mem hmem)), h.span]

theorem list {l : Option OptionList} (hl : m.Keeps (OptionList.settingsOf l)) :
    l.map (OptionList.moved m) = l := by
  cases l with
  | none => rfl
  | some l =>
      have hsettings : l.settings.map (OptionSetting.moved m) = l.settings :=
        map_eq_self fun o ho => h.setting (hl o ho)
      rw [Option.map_some, OptionList.moved, hsettings, h.span]

theorem typeUse (u : TypeUse) : u.moved m = u := by
  cases u with
  | scalar s => rfl
  | named n => rw [TypeUse.moved, h.typeName]

theorem fieldKind (k : FieldKind) : k.moved m = k := by
  cases k <;> simp only [FieldKind.moved, h.typeUse, h.span]

theorem field {f : Field} (hf : m.Keeps f.settings) : f.moved m = f := by
  rw [Field.moved, h.word, h.fieldKind, h.ident, h.integer, h.list hf, h.span]

theorem fields {fs : List Field} (hf : m.Keeps (fs.flatMap Field.settings)) :
    fs.map (Field.moved m) = fs := map_eq_self fun _ hmem => h.field (hf.of_mem hmem)

theorem numberRange (r : NumberRange) : r.moved m = r := by
  have hstop : r.stop.moved m = r.stop := by
    cases r.stop <;> simp only [RangeEnd.moved, h.integer, h.span]
  rw [NumberRange.moved, h.integer, hstop]

theorem reserved (r : Reserved) : r.moved m = r := by
  have hkind : r.kind.moved m = r.kind := by
    cases r.kind with
    | ranges rs => rw [ReservedKind.moved, map_eq_self fun r _ => h.numberRange r]
    | names ns => rw [ReservedKind.moved, map_eq_self fun n _ => h.ident n]
  rw [Reserved.moved, hkind, h.span]

theorem extensions {e : Extensions} (he : m.Keeps e.settings) : e.moved m = e := by
  rw [Extensions.moved, map_eq_self fun r _ => h.numberRange r, h.list he, h.span]

theorem oneof {o : Oneof} (ho : m.Keeps o.settings) : o.moved m = o := by
  rw [Oneof.moved, h.ident, h.statements ho.append_left, h.fields ho.append_right, h.span]

theorem extend {e : Extend} (he : m.Keeps e.settings) : e.moved m = e := by
  rw [Extend.moved, h.typeName, h.fields he, h.span]

theorem enum {e : Enum} (he : m.Keeps e.settings) : e.moved m = e := by
  have hvalues : e.values.map (EnumValue.moved m) = e.values := by
    refine map_eq_self fun v hv => ?_
    rw [EnumValue.moved, h.ident, h.integer, h.list (he.append_right.of_mem hv), h.span]
  rw [Enum.moved, h.ident, h.statements he.append_left, hvalues,
    map_eq_self fun r _ => h.reserved r, h.span]

theorem service {s : Service} (hs : m.Keeps s.settings) : s.moved m = s := by
  have hmethods : s.methods.map (Method.moved m) = s.methods := by
    refine map_eq_self fun r hr => ?_
    rw [Method.moved, h.ident, h.typeName, h.typeName, h.statements (hs.append_right.of_mem hr),
      option_map_eq_self h.span, option_map_eq_self h.span, h.span]
  rw [Service.moved, h.ident, h.statements hs.append_left, hmethods, h.span]

omit h

mutual

theorem message (h : m.Stays) : (d : Message) → m.Keeps d.settings → d.moved m = d
  | ⟨name, items, options, reserved, extensions, s⟩, hd => by
    rw [Message.settings] at hd
    rw [Message.moved, h.ident, items_eq h items hd.append_left.append_left,
      h.statements hd.append_left.append_right, map_eq_self fun r _ => h.reserved r,
      map_eq_self fun e he => h.extensions (hd.append_right.of_mem he), h.span]

theorem items_eq (h : m.Stays) : (is : List MessageItem) →
    m.Keeps (MessageItem.settingsAll is) → MessageItem.movedAll m is = is
  | [], _ => rfl
  | i :: is, hd => by
    rw [MessageItem.settingsAll] at hd
    rw [MessageItem.movedAll, item h i hd.append_left, items_eq h is hd.append_right]

theorem item (h : m.Stays) : (i : MessageItem) → m.Keeps i.settings → i.moved m = i
  | .field _, hd => congrArg MessageItem.field (h.field hd)
  | .oneof _, hd => congrArg MessageItem.oneof (h.oneof hd)
  | .message d, hd => congrArg MessageItem.message (message h d hd)
  | .enum _, hd => congrArg MessageItem.enum (h.enum hd)
  | .extend _, hd => congrArg MessageItem.extend (h.extend hd)

end

/-- A file stays as it is if its options keep their values. -/
theorem file (h : m.Stays) {f : File} (hf : m.Keeps f.settings) : f.moved m = f := by
  obtain ⟨dialect, place, package, imports, options, messages, enums, blocks, services⟩ := f
  have hpackage : package.map (Package.moved m) = package :=
    option_map_eq_self fun p => by rw [Package.moved, h.dottedName, h.span]
  have himports : imports.map (Import.moved m) = imports :=
    map_eq_self fun i _ => by rw [Import.moved, h.word, h.span, h.span]
  have hservices := hf.append_right
  have hblocks := hf.append_left.append_right
  have henums := hf.append_left.append_left.append_right
  have hmessages := hf.append_left.append_left.append_left.append_right
  have hoptions := hf.append_left.append_left.append_left.append_left
  rw [File.moved, option_map_eq_self h.span, hpackage, himports, h.statements hoptions,
    map_eq_self fun d hd => h.message d (hmessages.of_mem hd),
    map_eq_self fun e he => h.enum (henums.of_mem he),
    map_eq_self fun e he => h.extend (hblocks.of_mem he),
    map_eq_self fun s hs => h.service (hservices.of_mem hs)]

end Stays

/-- Nothing happens to a value that stays with its text. -/
theorem keeps_still (os : List OptionSetting) : still.Keeps os := by
  intro o _
  cases o.value <;> rfl

end Relocation

theorem File.moved_still (f : File) : f.moved .still = f :=
  Relocation.stays_still.file (Relocation.keeps_still f.settings)

end ProtoSchema
