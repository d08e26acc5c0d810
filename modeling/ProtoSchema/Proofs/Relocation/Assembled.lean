/-
Assembling trees at other places.

Two contexts that differ by a change give the same dialect and the same answers to questions
about names; only whether an unresolved reference is reported can differ.  Then assembling a
moved declaration in the one context is the changed account of assembling it in the other, for
every kind of declaration and for a whole file.

The one place where the contexts come apart is `Context.resolve`.  Everything above it passes on
what it resolved and never asks whether there are imports.
-/
import ProtoSchema.Proofs.Relocation.Checks

namespace ProtoSchema

open Checked

/-! ### Contexts -/

theorem TypeName.reference_moved (m : Relocation) (n : TypeName) :
    (n.moved m).reference = n.reference := by
  obtain ⟨dot, name⟩ := n
  cases dot with
  | none =>
      obtain ⟨first, rest⟩ := name
      simp [reference, moved, DottedName.moved, Function.comp_def]
  | some dot =>
      simp only [reference, moved, Option.map_some, DottedName.words_moved]

/-- Tables that agree on what names stand for resolve references alike. -/
theorem SymbolTable.resolve_congr {t t' : SymbolTable} (h : ∀ n, t'.kind? n = t.kind? n)
    (scope : FullName) (r : Reference) : t'.resolve scope r = t.resolve scope r := by
  have htype : ∀ n, t'.type? n = t.type? n := fun n => by rw [type?, h, type?]
  cases r with
  | absolute name => exact htype name
  | relative first rest =>
      rw [resolve, resolve]
      induction scope.enclosing with
      | nil => rfl
      | cons s scopes ih =>
          simp only [resolveIn, h, htype, ih]

/-- Two contexts in which names mean the same, with a change between them. -/
structure Context.Changed (ch : Change) (ctx ctx' : Context) : Prop where
  dialect : ctx'.dialect = ctx.dialect
  resolve : ∀ scope r, ctx'.symbols.resolve scope r = ctx.symbols.resolve scope r
  isEnumValue : ∀ enum value,
    ctx'.symbols.isEnumValue enum value = ctx.symbols.isEnumValue enum value
  hasImports : ctx'.hasImports = (ctx.hasImports || ch.silences)

variable {ch : Change} {ctx ctx' : Context}

namespace Context.Changed

variable (h : ctx.Changed ch ctx')

include h

/-- A reference is reported after the change if it was before, and is not silenced. -/
theorem reportUnresolved (n : TypeName) :
    reportIf (!ctx'.hasImports) (.unresolvedType n.text (n.span.moved ch.relocation)) =
      (reportIf (!ctx.hasImports) (.unresolvedType n.text n.span)).told ch id := by
  rw [h.hasImports]
  cases ctx.hasImports with
  | true => rfl
  | false =>
      cases hs : ch.silences with
      | false =>
          refine ext rfl ?_
          simp [reportIf, told, Change.diagnostics, Change.keeps, hs, Diagnostic.moved]
      | true =>
          refine ext rfl ?_
          simp [reportIf, told, Change.diagnostics, Change.keeps, hs, Diagnostic.isUnresolved]

theorem resolveName (scope : FullName) (n : TypeName) :
    ctx'.resolve scope (n.moved ch.relocation) = (ctx.resolve scope n).told ch id := by
  rw [Context.resolve, Context.resolve, n.reference_moved, h.resolve, n.text_moved, n.span_moved]
  cases ctx.symbols.resolve scope n.reference with
  | some found => rfl
  | none => exact told_then (h.reportUnresolved n) fun _ => rfl

theorem fieldType (scope : FullName) (u : TypeUse) :
    ctx'.fieldType scope (u.moved ch.relocation) =
      (ctx.fieldType scope u).told ch (FieldType.moved ch.relocation) := by
  cases u with
  | scalar s => rfl
  | named n =>
      refine told_then (h.resolveName scope n) fun found => ?_
      rcases found with _ | ⟨name, kind⟩
      · rfl
      · cases kind <;> rfl

theorem messageType (scope : FullName) (n : TypeName) :
    ctx'.messageType scope (n.moved ch.relocation) =
      (ctx.messageType scope n).told ch (TypeRef.moved ch.relocation) := by
  refine told_then (h.resolveName scope n) fun found => ?_
  rcases found with _ | ⟨name, kind⟩
  · rfl
  · rw [n.text_moved, n.span_moved]
    exact told_then (reportIf_changed ch _ (.invalidMessageType n.text n.span) rfl) fun _ => rfl

end Context.Changed

/-! ### Default values -/

namespace OptionValue

variable (ch) (v : OptionValue)

theorem checkInteger_changed (t : IntegerType) :
    (v.moved ch.relocation).checkInteger t = (v.checkInteger t).told ch id := by
  have hrefuse := v.refuse_changed ch (α := Int) (.integer t)
  cases v with
  | int n =>
      rw [moved, checkInteger, checkInteger, checkBetween, checkBetween, IntLiteral.between?_moved]
      cases n.between? _ _ with
      | some value => rfl
      | none => exact told_reported ch id (.integerValueOutOfRange t n.value n.span) rfl none
  | _ => exact hrefuse

theorem checkFloat_changed : (v.moved ch.relocation).checkFloat = v.checkFloat.told ch id := by
  have hrefuse := v.refuse_changed ch (α := String) .float
  cases v with
  | float x s => rfl
  | int n => rfl
  | ident negative name s => exact told_ite rfl (told_ite rfl hrefuse)
  | _ => exact hrefuse

theorem checkScalar_changed (s : ScalarType) :
    (v.moved ch.relocation).checkScalar s = (v.checkScalar s).told ch id := by
  unfold checkScalar
  cases s.integerType? with
  | some t => exact told_then (v.checkInteger_changed ch t) fun _ => rfl
  | none =>
      cases s with
      | bool => exact told_then (v.checkFlag_changed ch) fun _ => rfl
      | string => exact v.checkText_changed ch
      | bytes => exact told_then (v.checkBytes_changed ch) fun _ => rfl
      | _ => exact v.checkFloat_changed ch

theorem verbatim_changed : (v.moved ch.relocation).verbatim = v.verbatim := by
  cases v with
  | aggregate text s =>
      rw [moved, ch.keepsText text]
      rfl
  | _ => rfl

end OptionValue

theorem undefaultable?_moved (m : Relocation) (kind : FieldKind) (label : Label)
    (type : FieldType) :
    undefaultable? (kind.moved m) label (type.moved m) = undefaultable? kind label type := by
  cases kind <;> cases label <;> cases type <;> rfl

namespace Context.Changed

variable (h : ctx.Changed ch ctx')

include h

theorem checkEnumValue (v : OptionValue) (enum : FullName) :
    (v.moved ch.relocation).checkEnumValue ctx'.symbols enum =
      (v.checkEnumValue ctx.symbols enum).told ch id := by
  have hrefuse := v.refuse_changed ch (α := String) (.enumValue enum.text)
  cases v with
  | ident negative name s =>
      cases negative with
      | true => exact hrefuse
      | false =>
          simp only [OptionValue.checkEnumValue, OptionValue.moved, Ident.text_moved, h.isEnumValue]
          exact told_ite rfl hrefuse
  | _ => exact hrefuse

theorem defaultValue (kind : FieldKind) (label : Label) (type : FieldType) (o : OptionSetting) :
    ctx'.defaultValue (kind.moved ch.relocation) label (type.moved ch.relocation)
        (o.moved ch.relocation) = (ctx.defaultValue kind label type o).told ch id := by
  unfold Context.defaultValue
  rw [h.dialect, undefaultable?_moved, o.span_moved]
  refine told_ite (told_reported ch id (.proto3DefaultValue o.span) rfl none) ?_
  cases undefaultable? kind label type with
  | some reason => exact told_reported ch id (.invalidDefault reason o.span) rfl none
  | none =>
      have hverbatim : pure (some (o.value.moved ch.relocation).verbatim) =
          (pure (some o.value.verbatim) : Checked (Option String)).told ch id := by
        rw [o.value.verbatim_changed ch]
        rfl
      cases type with
      | scalar s => exact o.value.checkScalar_changed ch s
      | enum name => exact h.checkEnumValue o.value name
      | message name => exact hverbatim
      | unknown name => exact hverbatim

/-! ### Fields -/

omit h in
theorem fieldOptions (l : Option OptionList) :
    Context.fieldOptions (l.map (OptionList.moved ch.relocation)) =
      (Context.fieldOptions l).told ch (Context.FieldOptions.moved ch.relocation) := by
  have hreading : (readOptions (OptionList.settingsOf (l.map (OptionList.moved ch.relocation))) :
      Checked (OptionReading FieldOption)) =
        (readOptions (OptionList.settingsOf l)).told ch (OptionReading.moved ch.relocation) := by
    rw [OptionList.settingsOf_moved]
    exact readOptions_changed ch _
  refine told_bind hreading fun r => ?_
  rw [told_pure, Context.FieldOptions.moved, ← lookup_map]
  rfl

theorem field (scope : FullName) (f : Field) (label : Label) :
    ctx'.field scope (f.moved ch.relocation) label =
      (ctx.field scope f label).told ch (FieldDescriptor.moved ch.relocation) := by
  have htype : typeOf ctx' scope (f.moved ch.relocation) =
      (typeOf ctx scope f).told ch (FieldType.moved ch.relocation) := by
    obtain ⟨written, kind, name, number, options, s⟩ := f
    cases kind with
    | plain type s => exact h.fieldType scope type
    | map key keySpan value valueSpan s => rfl
  have hdefault : ∀ type (o : Option OptionSetting),
      defaultOf ctx' (f.moved ch.relocation) label (type.moved ch.relocation)
          (o.map (OptionSetting.moved ch.relocation)) =
        (defaultOf ctx f label type o).told ch id := by
    intro type o
    cases o with
    | none => rfl
    | some o => exact h.defaultValue f.kind label type o
  rw [field_eq, field_eq]
  exact told_then (f.number.checkFieldNumber_changed ch) fun number =>
    told_bind htype fun type => told_bind (fieldOptions f.options) fun o =>
      told_then (hdefault type o.default) fun default => rfl

theorem extensions (scope : FullName) (e : Extend) :
    ctx'.extensions scope (e.moved ch.relocation) =
      (ctx.extensions scope e).told ch (List.map (FieldDescriptor.moved ch.relocation)) := by
  refine told_bind (h.messageType scope e.extendee) fun extendee => told_each fun f => ?_
  exact told_then (f.checkExtensionLabel_changed ch) fun label =>
    told_bind (h.field scope f label) fun d => rfl

theorem mapEntry? (scope : FullName) (f : Field) :
    ctx'.mapEntry? scope (f.moved ch.relocation) =
      (ctx.mapEntry? scope f).told ch (Option.map (MessageDescriptor.moved ch.relocation)) := by
  obtain ⟨label, kind, name, number, options, s⟩ := f
  cases kind with
  | plain type s => rfl
  | map key keySpan value valueSpan s =>
      have hkey : Context.keyType (key.moved ch.relocation) (keySpan.moved ch.relocation) =
          (Context.keyType key keySpan).told ch (Option.map (FieldType.moved ch.relocation)) := by
        have hreport := told_reported ch (Option.map (FieldType.moved ch.relocation))
          (.invalidMapFieldKeyType keySpan) rfl none
        cases key with
        | scalar s => exact told_ite rfl hreport
        | named n => exact hreport
      exact told_bind hkey fun k => told_bind (h.fieldType scope value) fun v => rfl

end Context.Changed

/-! ### Enums -/

theorem Context.enumValue_changed (ch : Change) (v : EnumValue) :
    Context.enumValue (v.moved ch.relocation) = (Context.enumValue v).told ch id :=
  told_then (v.number.checkEnumNumber_changed ch) fun _ =>
    told_then (optionsOf_list_changed ch v.options) fun _ => rfl

namespace Context.Changed

variable (h : ctx.Changed ch ctx')

include h

theorem checkFirstValue (e : Enum) :
    ctx'.checkFirstValue (e.moved ch.relocation) = (ctx.checkFirstValue e).told ch id := by
  obtain ⟨name, options, values, reserved, s⟩ := e
  cases values with
  | nil => exact report_changed ch (.emptyEnum name.span) rfl
  | cons first rest =>
      unfold Context.checkFirstValue
      rw [h.dialect]
      exact reportIf_changed ch _ (.proto3FirstEnumValueNotZero first.number.span) rfl

theorem enum (e : Enum) : ctx'.enum (e.moved ch.relocation) = (ctx.enum e).told ch id := by
  have hvalues : each Context.enumValue (e.values.map (EnumValue.moved ch.relocation)) =
      (each Context.enumValue e.values).told ch id := by
    rw [← List.map_id_fun]
    exact told_each fun v => Context.enumValue_changed ch v
  refine told_then (h.checkFirstValue e) fun _ => told_then hvalues fun values => ?_
  refine told_bind (Reserved.check_changed ch (NumberRange.checkEnum_changed ch) e.reserved)
    fun reserved => ?_
  rw [Enum.moved, List.zip_map_right]
  refine told_bind (told_each (k := id) fun p => ?_) fun _ =>
    told_then (optionsOf_settings_changed ch e.options) fun options => ?_
  · obtain ⟨⟨name, number, options⟩, v⟩ := p
    have hname := checkUnreservedName_changed ch reserved.names v.name
    cases number with
    | none => exact hname
    | some n =>
        exact told_then (checkUnreserved_changed ch reserved.ranges [] n v.number.span)
          fun _ => hname
  · simp [told_pure, Reservations.moved, CheckedRange.moved, Function.comp_def]

/-! ### Parts of messages -/

theorem fieldParts (scope : FullName) (index : Nat) (f : Field) :
    ctx'.fieldParts scope index (f.moved ch.relocation) =
      (ctx.fieldParts scope index f).told ch (Context.MessageParts.moved ch.relocation) := by
  have hlabel : (f.moved ch.relocation).checkLabel ctx'.dialect =
      (f.checkLabel ctx.dialect).told ch id := by
    rw [h.dialect]
    exact f.checkLabel_changed ch ctx.dialect
  refine told_bind (h.mapEntry? scope f) fun entry => told_then hlabel fun l => ?_
  obtain ⟨label, tracksPresence⟩ := l
  refine told_bind (h.field scope f label) fun d => told_ite ?_ ?_
  · cases entry <;> rfl
  · cases entry <;> rfl

theorem oneofParts (scope : FullName) (index : Nat) (o : Oneof) :
    ctx'.oneofParts scope index (o.moved ch.relocation) =
      (ctx.oneofParts scope index o).told ch (Context.MessageParts.moved ch.relocation) := by
  have hempty : (o.moved ch.relocation).fields.isEmpty = o.fields.isEmpty := List.isEmpty_map
  unfold Context.oneofParts
  rw [hempty]
  refine told_then (reportIf_changed ch _ (.emptyOneof o.name.span) rfl) fun _ =>
    told_then (optionsOf_settings_changed ch o.options) fun options =>
      told_bind (told_each fun f => ?_) fun fields => rfl
  exact told_then (f.checkOneofLabel_changed ch) fun label =>
    told_bind (h.field scope f label) fun d => rfl

end Context.Changed

theorem Context.extensionRanges_changed (ch : Change) (e : Extensions) :
    Context.extensionRanges (e.moved ch.relocation) =
      (Context.extensionRanges e).told ch
        (List.map fun r => (r.1.moved ch.relocation, r.2)) := by
  refine told_then (optionsOf_list_changed ch e.options) fun options =>
    told_bind (told_each (NumberRange.checkMessage_changed ch)) fun ranges => ?_
  rw [told_pure, List.map_map, List.map_map]
  rfl

/-- The fields of a message as they are checked for their numbers. -/
theorem Context.MessageParts.numbers_moved (m : Relocation) (p : Context.MessageParts) :
    ((p.moved m).fields.map fun f => (f.2.number, f.1)) =
      (p.fields.map fun f => (f.2.number, f.1)).map fun f => (f.1, f.2.moved m) := by
  rw [MessageParts.moved, List.map_map, List.map_map]
  rfl

theorem Context.close_changed (ch : Change) (name : Ident) (parts : Context.MessageParts)
    (options : List OptionStatement) (reserved : List Reserved) (extensions : List Extensions) :
    Context.close (name.moved ch.relocation) (parts.moved ch.relocation)
        (options.map (OptionStatement.moved ch.relocation))
        (reserved.map (Reserved.moved ch.relocation))
        (extensions.map (Extensions.moved ch.relocation)) =
      (Context.close name parts options reserved extensions).told ch
        (MessageDescriptor.moved ch.relocation) := by
  refine told_bind (Reserved.check_changed ch (NumberRange.checkMessage_changed ch) reserved)
    fun reservations => ?_
  refine told_bind (told_each (Context.extensionRanges_changed ch)) fun ranges => ?_
  have hranges : ((ranges.map (List.map fun r => (r.1.moved ch.relocation, r.2))).flatten.map
      Prod.fst) = (ranges.flatten.map Prod.fst).map (CheckedRange.moved ch.relocation) := by
    rw [← List.map_flatten, List.map_map, List.map_map]
    rfl
  -- Fields and ranges are compared by their numbers, which stay when their places move.
  have hnumbers := checkFieldNumbers_changed ch reservations (ranges.flatten.map Prod.fst) []
    (parts.fields.map fun f => (f.2.number, f.1))
  rw [← parts.numbers_moved, ← hranges] at hnumbers
  refine told_then hnumbers fun _ => told_then (optionsOf_settings_changed ch options)
    fun options => ?_
  have hextensible : ((ranges.map (List.map fun r => (r.1.moved ch.relocation, r.2))).flatten.map
      fun r => (⟨halfOpen r.1, r.2⟩ : ExtensionRangeDescriptor)) =
        ranges.flatten.map fun r => ⟨halfOpen r.1, r.2⟩ := by
    rw [← List.map_flatten, List.map_map]
    rfl
  have hreserved : (reservations.moved ch.relocation).ranges.map halfOpen =
      reservations.ranges.map halfOpen := by
    rw [Reservations.moved, List.map_map]
    rfl
  have hnames : (reservations.moved ch.relocation).names.map Ident.text =
      reservations.names.map Ident.text := by
    rw [Reservations.moved, List.map_map]
    rfl
  have hfields : (parts.moved ch.relocation).fields.map Prod.snd =
      (parts.fields.map Prod.snd).map (FieldDescriptor.moved ch.relocation) := by
    rw [MessageParts.moved, List.map_map, List.map_map]
    rfl
  rw [told_pure, MessageDescriptor.moved, MessageDescriptor.movedAll_eq, hextensible, hreserved,
    hnames, hfields]
  rfl

/-! ### Messages -/

theorem Context.MessageParts.moved_append (m : Relocation) (p q : Context.MessageParts) :
    (p ++ q).moved m = p.moved m ++ q.moved m := by
  obtain ⟨fields, extensions, nested, enums, oneofs, presence⟩ := p
  obtain ⟨fields', extensions', nested', enums', oneofs', presence'⟩ := q
  show MessageParts.moved m (MessageParts.append _ _) = MessageParts.append _ _
  simp only [MessageParts.moved, MessageParts.append, List.map_append]

/-- Moving leaves as many oneofs as there were. -/
theorem MessageItem.countP_isOneof_moved (m : Relocation) (items : List MessageItem) :
    (MessageItem.movedAll m items).countP Context.isOneof = items.countP Context.isOneof := by
  rw [movedAll_eq, List.countP_map]
  refine List.countP_congr fun i _ => ?_
  cases i <;> exact Iff.rfl

mutual

theorem Context.Changed.message (h : ctx.Changed ch ctx') (scope : FullName) : (d : Message) →
    ctx'.message scope (d.moved ch.relocation) =
      (ctx.message scope d).told ch (MessageDescriptor.moved ch.relocation)
  | ⟨name, items, options, reserved, extensions, s⟩ => by
    rw [Message.moved, Context.message, Context.message, MessageItem.countP_isOneof_moved]
    exact told_bind (messageItems h (scope.child name.text) items 0 _) fun parts =>
      Context.close_changed ch name parts options reserved extensions

theorem Context.Changed.messageItems (h : ctx.Changed ch ctx') (scope : FullName) :
    (items : List MessageItem) → ∀ oneofIndex presenceIndex : Nat,
      ctx'.messageItems scope oneofIndex presenceIndex
          (MessageItem.movedAll ch.relocation items) =
        (ctx.messageItems scope oneofIndex presenceIndex items).told ch
          (Context.MessageParts.moved ch.relocation)
  | [], _, _ => by
    rw [MessageItem.movedAll, Context.messageItems, Context.messageItems]
    rfl
  | i :: is, o, p => by
    rw [MessageItem.movedAll, Context.messageItems, Context.messageItems]
    refine told_bind (messageItem h scope i o p) fun parts =>
      told_bind (messageItems h scope is (o + parts.oneofs.length) (p + parts.presence.length))
        fun more => ?_
    rw [told_pure, Context.MessageParts.moved_append]

theorem Context.Changed.messageItem (h : ctx.Changed ch ctx') (scope : FullName) :
    (i : MessageItem) → ∀ oneofIndex presenceIndex : Nat,
      ctx'.messageItem scope oneofIndex presenceIndex (i.moved ch.relocation) =
        (ctx.messageItem scope oneofIndex presenceIndex i).told ch
          (Context.MessageParts.moved ch.relocation)
  | .field f, o, p => by
    rw [MessageItem.moved, Context.messageItem, Context.messageItem]
    exact h.fieldParts scope p f
  | .oneof x, o, p => by
    rw [MessageItem.moved, Context.messageItem, Context.messageItem]
    exact h.oneofParts scope o x
  | .message d, o, p => by
    rw [MessageItem.moved, Context.messageItem, Context.messageItem]
    exact told_bind (message h scope d) fun _ => rfl
  | .enum e, o, p => by
    rw [MessageItem.moved, Context.messageItem, Context.messageItem]
    exact told_then (h.enum e) fun _ => rfl
  | .extend e, o, p => by
    rw [MessageItem.moved, Context.messageItem, Context.messageItem]
    exact told_bind (h.extensions scope e) fun _ => rfl

end

/-! ### Services and files -/

namespace Context.Changed

variable (h : ctx.Changed ch ctx')

include h

theorem method (scope : FullName) (r : Method) :
    ctx'.method scope (r.moved ch.relocation) =
      (ctx.method scope r).told ch (MethodDescriptor.moved ch.relocation) := by
  refine told_bind (h.messageType scope r.input) fun input =>
    told_bind (h.messageType scope r.output) fun output =>
      told_then (optionsOf_settings_changed ch r.options) fun options => ?_
  simp [told_pure, MethodDescriptor.moved, Method.moved]

theorem service (scope : FullName) (s : Service) :
    ctx'.service scope (s.moved ch.relocation) =
      (ctx.service scope s).told ch (ServiceDescriptor.moved ch.relocation) :=
  told_bind (told_each (h.method scope)) fun _ =>
    told_then (optionsOf_settings_changed ch s.options) fun _ => rfl

end Context.Changed

theorem Package.scope_moved (m : Relocation) (p : Option Package) :
    Package.scope (p.map (Package.moved m)) = Package.scope p := by
  cases p with
  | none => rfl
  | some p => simp [scope, Package.moved]

/-- The imports of a descriptor, replaced by those of a file. -/
def FileDescriptor.withImportsOf (file : File) (d : FileDescriptor) : FileDescriptor :=
  { d with
    dependencies := file.imports.map Import.path
    publicDependencies := file.importPlaces .publicImport
    weakDependencies := file.importPlaces .weakImport }

/--
A file at another place, perhaps with other imports, is described as it was but for the imports,
in a context in which names mean the same.
-/
theorem File.describe_changed (ch : Change) (file : File) (name : String) (imports : List Import)
    {symbols symbols' : SymbolTable}
    (h : (file.context symbols).Changed ch
      (({ file.moved ch.relocation with imports } : File).context symbols')) :
    ({ file.moved ch.relocation with imports } : File).describe name symbols' =
      (file.describe name symbols).told ch fun d =>
        (d.moved ch.relocation).withImportsOf { file with imports } := by
  have hscope : Package.scope (file.moved ch.relocation).package = Package.scope file.package :=
    Package.scope_moved ch.relocation file.package
  have hname : (file.moved ch.relocation).package.map (fun p => Package.scope (some p)) =
      file.package.map fun p => Package.scope (some p) := by
    rw [File.moved, Option.map_map]
    exact Option.map_congr fun p _ => Package.scope_moved ch.relocation (some p)
  have henums : each (({ file.moved ch.relocation with imports } : File).context symbols').enum
      (file.enums.map (Enum.moved ch.relocation)) =
        (each (file.context symbols).enum file.enums).told ch id := by
    rw [← List.map_id_fun]
    exact told_each h.enum
  unfold File.describe
  dsimp only
  rw [hscope]
  refine told_bind (told_each (h.message _)) fun messages => told_then henums fun enums =>
    told_bind (told_each (h.extensions _)) fun extensions => told_bind (told_each (h.service _))
      fun services => told_then (optionsOf_settings_changed ch file.options) fun options => ?_
  rw [told_pure, hname]
  simp only [FileDescriptor.moved, FileDescriptor.withImportsOf, List.map_flatten]
  rfl

end ProtoSchema
