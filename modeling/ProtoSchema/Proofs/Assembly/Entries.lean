/-
Maps and the messages of their entries.

A map is written as one field, and two things come of it: a repeated field, and beside it a message
that holds one entry.  They are assembled by different functions, and the field refers to the
message by the name that the message gets, in whatever package and however deep they stand.  The
message has a key and a value and the mark of an entry.  A key of a type that cannot be one is
reported where it stands, and left without a type; nothing else changes.

No other message has that mark.  The option of that name sets nothing, wherever it is written, so
of a file's messages those without the mark are just the ones that are written as messages.
-/
import ProtoSchema.Proofs.Assembly.Fates
import ProtoSchema.Proofs.Assembly.Rules
import ProtoSchema.Proofs.Assembly.Shares
import ProtoSchema.Proofs.Linking.Scoping

namespace ProtoSchema

open Checked

/-! ### Entries -/

/-- The type of keys that a type can be: integers, booleans and strings. -/
def TypeUse.key? : TypeUse → Option ScalarType
  | .scalar .double | .scalar .float | .scalar .bytes | .named _ => none
  | .scalar s => some s

/-- What a type in a scope comes to, by what the table of names says about it. -/
inductive Context.Means (ctx : Context) (scope : FullName) : TypeUse → FieldType → Prop
  | scalar {s : ScalarType} : Means ctx scope (.scalar s) (.scalar s)
  | enum {n : TypeName} {name : FullName} :
      ctx.symbols.resolve scope n.reference = some (name, .enum) →
        Means ctx scope (.named n) (.enum name)
  | message {n : TypeName} {name : FullName} :
      ctx.symbols.resolve scope n.reference = some (name, .message) →
        Means ctx scope (.named n) (.message name)
  | unknown {n : TypeName} : ctx.symbols.resolve scope n.reference = none →
      Means ctx scope (.named n) (.unknown n)

/-- A field of an entry, with nothing but its name, its number and its type. -/
structure FieldDescriptor.IsEntryField (f : FieldDescriptor) (name : String) (number : Int)
    (type : Option FieldType) : Prop where
  name : f.name = name
  number : f.number = some number
  label : f.label = .optional
  type : f.type = type
  bare : f.extendee = none ∧ f.defaultValue = none ∧ f.oneofIndex = none ∧ f.options = none ∧
    f.proto3Optional = false

namespace MessageDescriptor

/-- Whether a message has the mark of an entry. -/
def isMapEntry (d : MessageDescriptor) : Bool :=
  d.options.any fun o => o.settings.any (·.1 = .mapEntry)

/-- The message of the entries of a map with a name, in the scope of the message of that map. -/
structure IsEntryOf (d : MessageDescriptor) (ctx : Context) (scope : FullName) (name : String)
    (key value : TypeUse) : Prop where
  name : d.name = pascalCase name ++ "Entry"
  fields : ∃ k v type, d.fields = [k, v] ∧ ctx.Means scope value type ∧
    k.IsEntryField "key" 1 (key.key?.map .scalar) ∧ v.IsEntryField "value" 2 (some type)
  options : d.options = some ⟨[(.mapEntry, .flag true)], []⟩
  bare : d.nested = [] ∧ d.enums = [] ∧ d.extensions = [] ∧ d.oneofs = [] ∧
    d.extensionRanges = [] ∧ d.reservedRanges = [] ∧ d.reservedNames = []

end MessageDescriptor

namespace MessageItem

/-- Whether a message is nested for an item: for a map or for a message. -/
def nests : MessageItem → Bool
  | .field f => f.kind.isMap
  | .message _ => true
  | _ => false

/-- What is reported of the key of an item that is a map. -/
def keyFaults : MessageItem → List Diagnostic
  | .field f =>
    match f.kind with
    | .map key keySpan _ _ _ => if key.key?.isNone then [.invalidMapFieldKeyType keySpan] else []
    | .plain .. => []
  | _ => []

end MessageItem

/-- The message that is nested for an item of a message, which is its scope. -/
inductive Context.Nests (ctx : Context) (scope : FullName) :
    MessageItem → MessageDescriptor → Prop
  | entry {f : Field} {key value : TypeUse} {keySpan valueSpan span : Span}
      {d : MessageDescriptor} : f.kind = .map key keySpan value valueSpan span →
      d.IsEntryOf ctx scope f.name.text key value → Nests ctx scope (.field f) d
  | message {m : Message} : (ctx.message scope m).value.isMapEntry = false →
      Nests ctx scope (.message m) (ctx.message scope m).value

/-- The maps of a message, whose full name is `n`, and the messages within it. -/
structure MessageDescriptor.HoldsEntries (d : MessageDescriptor) (ctx : Context) (n : FullName)
    (m : Message) : Prop where
  /-- Nested messages come from maps and messages, one from each, in the order of the source. -/
  nested : List.Forall₂ (ctx.Nests n) (m.items.filter MessageItem.nests) d.nested
  /-- A map that stands in no oneof is a repeated field of the message of its entries. -/
  fields : ∀ (k : Nat) (x : Member), m.fieldMembers[k]? = some x → x.oneof = none →
    x.field.kind.isMap = true → ∃ f, d.fields[k]? = some f ∧ f.name = x.field.name.text ∧
      f.label = .repeated ∧ f.typeNumber? = some 11 ∧
      f.typeName? = some ("." ++ n.text ++ "." ++ (pascalCase x.field.name.text ++ "Entry"))

/-- The messages of a descriptor without the mark of an entry, at any depth, by their full names. -/
def FileDescriptor.ownMessages (d : FileDescriptor) : List (FullName × MessageDescriptor) :=
  (MessageDescriptor.walkAll d.scope d.messages).filter (!·.2.isMapEntry)

/-- Maps and the messages of their entries belong together everywhere in a descriptor. -/
structure FileDescriptor.HoldsEntries (d : FileDescriptor) (ctx : Context) (file : File) :
    Prop where
  messages : ∀ scope m, file.Holds scope (.message m) →
    d.HasMessage (scope.child m.name.text) (ctx.message scope m).value ∧
      (ctx.message scope m).value.HoldsEntries ctx (scope.child m.name.text) m
  /-- A message with the mark of an entry is that of the entries of a map of a message around it. -/
  marked : ∀ n entry, d.HasMessage n entry → entry.isMapEntry = true →
    ∃ scope m f key keySpan value valueSpan span, file.Holds scope (.message m) ∧
      .field f ∈ m.items ∧ f.kind = .map key keySpan value valueSpan span ∧
      n = (scope.child m.name.text).child entry.name ∧
      entry.IsEntryOf ctx (scope.child m.name.text) f.name.text key value
  /-- The messages without it are those that are written, each once and in order. -/
  own : d.ownMessages = file.heldMessages.map fun p =>
    (p.1.child p.2.name.text, (ctx.message p.1 p.2).value)

/-! ### What comes of a map -/

theorem FullName.text_child (scope : FullName) (name inner : String) :
    ((scope.child name).child inner).text = (scope.child name).text ++ "." ++ inner := by
  have hdescend := (scope.child name).text_descend inner []
  have hroot : scope.child name ≠ .root := fun h =>
    List.cons_ne_nil _ _ (congrArg FullName.chain h)
  rw [qualify, if_neg hroot] at hdescend
  exact hdescend

namespace Context

variable (ctx : Context) (scope : FullName)

theorem value_resolve (n : TypeName) :
    (ctx.resolve scope n).value = ctx.symbols.resolve scope n.reference := by
  unfold resolve
  cases hresolve : ctx.symbols.resolve scope n.reference with
  | none => rfl
  | some found => rfl

/-- The type of a field is what the type means in its scope. -/
theorem means_fieldType (type : TypeUse) :
    ctx.Means scope type (ctx.fieldType scope type).value := by
  cases type with
  | scalar s => exact .scalar
  | named n =>
      have hresolve := ctx.value_resolve scope n
      unfold fieldType
      rw [value_bind]
      cases hvalue : (ctx.resolve scope n).value with
      | none => exact .unknown (hresolve.symm.trans hvalue)
      | some found =>
          obtain ⟨name, kind⟩ := found
          have hfound := hresolve.symm.trans hvalue
          have htype := (SymbolTable.hasType_of_resolve hfound).2
          cases kind with
          | enum => exact .enum hfound
          | message => exact .message hfound
          | _ => cases htype

theorem keyType_eq (key : TypeUse) (span : Span) :
    keyType key span = (if key.key?.isNone then do
      report (.invalidMapFieldKeyType span)
      pure (key.key?.map FieldType.scalar)
    else pure (key.key?.map FieldType.scalar)) := by
  cases key with
  | scalar s => cases s <;> rfl
  | named n => rfl

variable {ctx scope}

/-- The message that a map gets is that of its entries. -/
theorem isEntryOf_mapEntry? {f : Field} {key value : TypeUse} {keySpan valueSpan span : Span}
    (h : f.kind = .map key keySpan value valueSpan span) :
    ∃ d, (ctx.mapEntry? scope f).value = some d ∧
      d.IsEntryOf ctx scope f.name.text key value := by
  have hkey : (keyType key keySpan).value = key.key?.map .scalar := by
    rw [keyType_eq]
    split <;> rfl
  unfold mapEntry?
  rw [h]
  refine ⟨_, rfl, rfl, ⟨_, _, _, rfl, ctx.means_fieldType scope value, ?_, ?_⟩, rfl,
    ⟨rfl, rfl, rfl, rfl, rfl, rfl, rfl⟩⟩
  · exact ⟨rfl, rfl, rfl, hkey, rfl, rfl, rfl, rfl, rfl⟩
  · exact ⟨rfl, rfl, rfl, rfl, rfl, rfl, rfl, rfl, rfl⟩

/-- Only maps get a message. -/
theorem exists_isEntryOf {f : Field} {d : MessageDescriptor}
    (h : (ctx.mapEntry? scope f).value = some d) :
    ∃ key keySpan value valueSpan span, f.kind = .map key keySpan value valueSpan span ∧
      d.IsEntryOf ctx scope f.name.text key value := by
  cases hkind : f.kind with
  | plain type span =>
      unfold mapEntry? at h
      rw [hkind] at h
      cases h
  | map key keySpan value valueSpan span =>
      obtain ⟨d', hd, hentry⟩ := isEntryOf_mapEntry? hkind
      obtain rfl := Option.some.inj (h.symm.trans hd)
      exact ⟨key, keySpan, value, valueSpan, span, rfl, hentry⟩

/-! ### What is reported of keys -/

theorem on_mapKeys_field (f : Field) (label : Label) :
    (ctx.field scope f label).on .mapKeys = [] := by
  rw [on_field ctx scope Topic.noConfusion]
  simp [on_eq (about_typeOf _ _ _), on_eq (about_fieldOptions _), on_eq (about_defaultOf _ _ _ _ _)]

theorem on_mapKeys_extensions (e : Extend) : (ctx.extensions scope e).on .mapKeys = [] := by
  rw [on_extensions]
  simp [on_eq (about_messageType _ _ _), on_eq (about_checkExtensionLabel _), on_mapKeys_field]

theorem on_mapKeys_enum (e : Enum) : (ctx.enum e).on .mapKeys = [] := by
  have ht : Topic.mapKeys ≠ .numbers := Topic.noConfusion
  rw [on_enum ctx ht]
  simp [on_eq (about_checkFirstValue _ _), on_enumValue ht, on_eq (about_optionsOf _)]

theorem on_mapKeys_mapEntry? (f : Field) :
    (ctx.mapEntry? scope f).on .mapKeys = (MessageItem.field f).keyFaults := by
  unfold mapEntry? MessageItem.keyFaults
  dsimp only
  cases f.kind with
  | plain type s => rfl
  | map key keySpan value valueSpan s =>
      simp only [on_bind, on_pure, on_eq (about_fieldType _ _ _), on_of_about (about_keyType _ _),
        List.append_nil, reduceCtorEq, if_false]
      rw [keyType_eq]
      split <;> rfl

/-- Of an item, only the key of a map is reported as one. -/
theorem itemReports_mapKeys (i : MessageItem) :
    ctx.itemReports scope .mapKeys i = i.keyFaults := by
  cases i with
  | field f =>
      rw [itemReports, on_fieldParts, on_mapKeys_mapEntry?, on_mapKeys_field,
        on_of_about_ne (about_checkLabel _ _) Topic.noConfusion, List.append_nil, List.append_nil]
  | oneof o =>
      have hempty : (reportIf o.fields.isEmpty (.emptyOneof o.name.span)).About .others :=
        about_reportIf.mpr fun _ => rfl
      rw [itemReports, on_oneofParts]
      simp [on_eq hempty, on_eq (about_optionsOf _), on_eq (about_checkOneofLabel _),
        on_mapKeys_field, MessageItem.keyFaults]
  | message m => rfl
  | enum e => exact on_mapKeys_enum e
  | extend e => exact on_mapKeys_extensions e

theorem ownReports_mapKeys (m : Message) :
    ctx.ownReports scope .mapKeys m = m.items.flatMap MessageItem.keyFaults := by
  have hclosing : (ctx.closing scope m).on .mapKeys = [] := by
    have ht : Topic.mapKeys ≠ .numbers := Topic.noConfusion
    unfold closing
    rw [on_close ht]
    simp [on_extensionRanges ht, on_eq (about_optionsOf _)]
  unfold ownReports
  rw [hclosing, List.append_nil]
  exact List.flatMap_congr fun i _ => itemReports_mapKeys i

end Context

/-- What a file reports of keys is what it reports of its maps, one by one. -/
theorem File.mapKeys_describe (file : File) (name : String) (symbols : SymbolTable) :
    ((file.describe name symbols).on .mapKeys).Perm
      (file.heldMessages.flatMap fun p => p.2.items.flatMap MessageItem.keyFaults) := by
  refine (file.reports_describe name symbols .mapKeys).trans (List.Perm.of_eq ?_)
  simp [Context.ownReports_mapKeys, Context.on_mapKeys_enum, Context.on_mapKeys_extensions,
    Context.on_service, Context.on_method, on_eq (about_messageType _ _ _),
    on_eq (about_optionsOf _)]

/-! ### No other message has the mark -/

namespace Context

variable {ctx : Context} {scope : FullName}

/-- The mark of an entry is set by no option that is written. -/
theorem not_sets_mapEntry (os : List OptionSetting) :
    (optionsOf os : Checked (Option (Options MessageOption))).value.any
      (fun o => o.settings.any (·.1 = .mapEntry)) = false := by
  have hforms : ∀ entry ∈ OptionKey.entries MessageOption, entry.form ≠ .deferred := by decide
  obtain ⟨fates, hfates, -, hholds, -⟩ := accountsFor_optionsOf hforms os
  cases hoptions : (optionsOf os : Checked (Option (Options MessageOption))).value with
  | none => rfl
  | some o =>
      rw [hoptions] at hholds
      rw [Option.any_some, hholds.1, List.any_eq_false]
      rintro ⟨key, value⟩ hmem hkey
      obtain rfl : key = .mapEntry := of_decide_eq_true hkey
      obtain ⟨fate, hfate, hset⟩ := List.mem_filterMap.mp hmem
      cases fate with
      | sets key value' =>
          obtain ⟨rfl, rfl⟩ := Prod.mk.inj (Option.some.inj hset)
          obtain ⟨word, form, hknown, _, -, -, hreads⟩ := hfates.exists_of_sets hfate
          obtain ⟨-, rfl⟩ := OptionKey.mem_entries_iff.mp hknown
          -- No value has the form of an option that must not be written.
          cases hreads
      | refused d => cases hset
      | repeated d => cases hset
      | deferred key o => cases hset
      | kept o found => cases hset

theorem isMapEntry_message (m : Message) : (ctx.message scope m).value.isMapEntry = false := by
  rw [message_eq]
  exact not_sets_mapEntry _

theorem isMapEntry_of_isEntryOf {d : MessageDescriptor} {name : String} {key value : TypeUse}
    (h : d.IsEntryOf ctx scope name key value) : d.isMapEntry = true := by
  unfold MessageDescriptor.isMapEntry
  rw [h.options]
  rfl

/-! ### Messages -/

/-- What is nested for an item is one message, if something is nested for it. -/
theorem nests_nestedOf (i : MessageItem) :
    List.Forall₂ (ctx.Nests scope) ([i].filter MessageItem.nests) (ctx.nestedOf scope i) := by
  cases i with
  | field f =>
      rw [nestedOf]
      cases hkind : f.kind with
      | plain type span =>
          have hentry : (ctx.mapEntry? scope f).value = none := by
            unfold mapEntry?
            rw [hkind]
            rfl
          have hnests : (MessageItem.field f).nests = false := by
            rw [MessageItem.nests, hkind]
            rfl
          rw [hentry, List.filter_cons_of_neg (by simp [hnests])]
          exact .nil
      | map key keySpan value valueSpan span =>
          obtain ⟨d, hd, hentry⟩ := isEntryOf_mapEntry? hkind
          have hnests : (MessageItem.field f).nests = true := by
            rw [MessageItem.nests, hkind]
            rfl
          rw [hd, List.filter_cons_of_pos hnests]
          exact .cons (.entry hkind hentry) .nil
  | message m => exact .cons (.message (isMapEntry_message m)) .nil
  | oneof o => exact .nil
  | enum e => exact .nil
  | extend e => exact .nil

theorem nests_items (items : List MessageItem) :
    List.Forall₂ (ctx.Nests scope) (items.filter MessageItem.nests)
      (items.flatMap (ctx.nestedOf scope)) := by
  induction items with
  | nil => exact .nil
  | cons i is ih =>
      rw [List.flatMap_cons, ← List.singleton_append, List.filter_append]
      exact List.rel_append (nests_nestedOf i) ih

/-- A map that stands in no oneof is a repeated field of the message of its entries. -/
theorem typeName_memberAt (ctx : Context) (scope : FullName) {x : Member} (hnone : x.oneof = none)
    (hmap : x.field.kind.isMap = true) (place : Option Nat) (name : String) :
    (ctx.memberAt (scope.child name) x place).label = .repeated ∧
      (ctx.memberAt (scope.child name) x place).typeNumber? = some 11 ∧
      (ctx.memberAt (scope.child name) x place).typeName? =
        some ("." ++ (scope.child name).text ++ "." ++
          (pascalCase x.field.name.text ++ "Entry")) := by
  have hlabel : x.label ctx.dialect = .repeated := by
    unfold Member.label
    rw [hnone]
    exact congrArg Prod.fst (Field.checkLabel_of_isMap ctx.dialect hmap)
  -- The type of a map is the entry that its own name gives, and is looked up nowhere.
  have htype : (ctx.memberAt (scope.child name) x place).type =
      some (.message ((scope.child name).child (mapEntryName x.field.name.text))) := by
    unfold memberAt
    dsimp only
    rw [field_eq]
    show some (typeOf ctx (scope.child name) x.field).value = _
    unfold typeOf
    cases hkind : x.field.kind with
    | plain type span =>
        rw [hkind] at hmap
        cases hmap
    | map key keySpan value valueSpan span => rfl
  have htext := FullName.text_child scope name (mapEntryName x.field.name.text)
  refine ⟨(label_field _ _ _ _).trans hlabel, ?_, ?_⟩
  · unfold FieldDescriptor.typeNumber?
    rw [htype]
    rfl
  · unfold FieldDescriptor.typeName?
    rw [htype]
    simp only [Option.bind_some, FieldType.name?, Option.map_some, TypeRef.text, htext]
    rw [String.append_assoc, String.append_assoc, String.append_assoc]
    rfl

/-- The maps of a message and the messages within it are as they are written. -/
theorem holdsEntries_message (m : Message) :
    (ctx.message scope m).value.HoldsEntries ctx (scope.child m.name.text) m where
  nested := by
    rw [(ctx.contents_message scope m).1]
    exact nests_items m.items
  fields k x hx hnone hmap := by
    obtain ⟨hlabel, hnumber, hname⟩ := typeName_memberAt ctx scope hnone hmap
      (m.oneofIndex ctx.dialect k x) m.name.text
    refine ⟨_, ?_, ctx.name_memberAt _ x _, hlabel, hnumber, hname⟩
    rw [(ctx.assembles_message scope m).fields, List.getElem?_mapIdx, hx]
    rfl

end Context

/-! ### Files -/

namespace Context

variable (ctx : Context)

mutual

/-- Without the entries of maps, the messages of a descriptor are those that are written. -/
theorem own_message (scope : FullName) : (m : Message) →
    ((ctx.message scope m).value.walk scope).filter (!·.2.isMapEntry) =
      (m.walk scope).map fun p => (p.1.child p.2.name.text, (ctx.message p.1 p.2).value)
  | ⟨name, items, options, reserved, extensions, span⟩ => by
      rw [MessageDescriptor.walk_eq, name_message, (ctx.contents_message scope _).1,
        Message.walk_eq, List.map_cons, List.filter_cons_of_pos (by simp [isMapEntry_message]),
        own_items (scope.child name.text) items]

theorem own_items (scope : FullName) : (items : List MessageItem) →
    (MessageDescriptor.walkAll scope (items.flatMap (ctx.nestedOf scope))).filter
        (!·.2.isMapEntry) =
      (MessageItem.walkAll scope items).map fun p =>
        (p.1.child p.2.name.text, (ctx.message p.1 p.2).value)
  | [] => rfl
  | i :: is => by
      rw [List.flatMap_cons, MessageDescriptor.walkAll_append, List.filter_append,
        MessageItem.walkAll, List.map_append, own_item scope i, own_items scope is]

theorem own_item (scope : FullName) : (i : MessageItem) →
    (MessageDescriptor.walkAll scope (ctx.nestedOf scope i)).filter (!·.2.isMapEntry) =
      (i.walk scope).map fun p => (p.1.child p.2.name.text, (ctx.message p.1 p.2).value)
  | .message m => by
      rw [nestedOf, MessageDescriptor.walkAll, MessageDescriptor.walkAll, List.append_nil]
      exact own_message scope m
  | .field f => by
      rw [nestedOf]
      cases hentry : (ctx.mapEntry? scope f).value with
      | none => rfl
      | some d =>
          obtain ⟨_, _, _, _, _, -, hd⟩ := exists_isEntryOf hentry
          rw [Option.toList_some, MessageDescriptor.walkAll_eq, List.flatMap_cons,
            List.flatMap_nil, List.append_nil, MessageDescriptor.walk_eq, hd.bare.1,
            List.filter_cons_of_neg (by simp [isMapEntry_of_isEntryOf hd])]
          rfl
  | .oneof _ => rfl
  | .enum _ => rfl
  | .extend _ => rfl

end

end Context

namespace File

variable {file : File} {name : String} {symbols : SymbolTable}

/-- What is within a message is an item of a message that the file holds. -/
theorem Holds.exists_of_field {scope : FullName} {f : Field} (h : file.Holds scope (.field f)) :
    ∃ outer m, file.Holds outer (.message m) ∧ .field f ∈ m.items ∧
      scope = outer.child m.name.text := by
  cases h with
  | within hm hf => exact ⟨_, _, hm, hf, rfl⟩

theorem ownMessages_describe (file : File) (name : String) (symbols : SymbolTable) :
    (file.describe name symbols).value.ownMessages = file.heldMessages.map fun p =>
      (p.1.child p.2.name.text, ((file.context symbols).message p.1 p.2).value) := by
  unfold FileDescriptor.ownMessages heldMessages
  rw [scope_describe, messages_describe, MessageDescriptor.walkAll_eq, List.flatMap_map,
    List.filter_flatMap, List.map_flatMap]
  exact List.flatMap_congr fun m _ => (file.context symbols).own_message _ m

theorem holdsEntries_describe (file : File) (name : String) (symbols : SymbolTable) :
    (file.describe name symbols).value.HoldsEntries (file.context symbols) file where
  messages scope m hm := ⟨hm.hasMessage, Context.holdsEntries_message m⟩
  marked n entry hn hmark := by
    cases gives_of_hasMessage hn with
    | message hm =>
        rw [Context.isMapEntry_message] at hmark
        cases hmark
    | entry hf hentry =>
        obtain ⟨outer, m, hm, hmem, rfl⟩ := hf.exists_of_field
        obtain ⟨key, keySpan, value, valueSpan, span, hkind, hd⟩ :=
          Context.exists_isEntryOf hentry
        exact ⟨outer, m, _, key, keySpan, value, valueSpan, span, hm, hmem, hkind, rfl, hd⟩
  own := ownMessages_describe file name symbols

end File

/-! ### Sources -/

theorem Diagnostic.category_of_mapKeys {d : Diagnostic} (h : d.topic = .mapKeys) :
    d.category = .semantic := by
  cases d <;> first | rfl | cases h

/--
**Every map becomes a repeated field and the message of its entries.**  In the descriptor of every
source that has one, at any depth, the messages within a message are those of its maps and those
that are written, in order; the field of a map refers to the message of its entries by its full
name; no other message has the mark of an entry; and of keys it is reported that they are of no
legal type, once for each map with such a key.
-/
theorem entries_of_readText {name source : String} {schema : Schema}
    (h : readText name source = .ok schema) :
    ∃ file ds, parseFile source.toList = .tree file ds ∧
      schema.descriptor.HoldsEntries (file.context (SymbolTable.ofFile file).1) file ∧
      (schema.report.diagnostics.filter (·.topic = .mapKeys)).Perm
        (file.heldMessages.flatMap fun p => p.2.items.flatMap MessageItem.keyFaults) := by
  obtain ⟨file, parsing, hparse, hsemantic, hdesc, hreport⟩ := report_of_readText h
  refine ⟨file, parsing, hparse, ?_, ?_⟩
  · rw [hdesc]
    exact file.holdsEntries_describe name _
  · have hparsing : parsing.filter (·.topic = .mapKeys) = [] :=
      List.filter_eq_nil_iff.mpr fun d hd htopic =>
        hsemantic d hd (Diagnostic.category_of_mapKeys (of_decide_eq_true htopic))
    have hnaming : (SymbolTable.ofFile file).2.filter (·.topic = .mapKeys) = [] := by
      refine List.filter_eq_nil_iff.mpr fun d hd htopic => ?_
      rw [SymbolTable.topic_ofFile file d hd] at htopic
      cases of_decide_eq_true htopic
    refine (hreport.filter _).trans ?_
    rw [List.filter_append, List.filter_append, hparsing, hnaming]
    exact file.mapKeys_describe name _

/-- Two maps, one with a key of no legal type, around a message that claims to be an entry. -/
def keyedText : String :=
  "package p; message M \x7b map<string, N> a_b = 1;
  message N \x7b option map_entry = true; \x7d map<double, M> c = 2; \x7d"

theorem entries_of_readText_keyed :
    ∃ schema, readText "keyed.proto" keyedText = .ok schema ∧
      (schema.descriptor.messages.flatMap fun d => d.nested.map fun n => (n.name, n.isMapEntry)) =
        [("ABEntry", true), ("N", false), ("CEntry", true)] ∧
      (schema.report.diagnostics.filter (·.topic = .mapKeys)).length = 1 ∧
      ∃ file ds, parseFile keyedText.toList = .tree file ds ∧
        schema.descriptor.HoldsEntries (file.context (SymbolTable.ofFile file).1) file := by
  have hread : ((readText "keyed.proto" keyedText).toOption.any fun s =>
      (s.descriptor.messages.flatMap fun d => d.nested.map fun n => (n.name, n.isMapEntry)) =
          [("ABEntry", true), ("N", false), ("CEntry", true)] &&
        (s.report.diagnostics.filter (·.topic = .mapKeys)).length = 1) = true := by
    decide +kernel
  obtain ⟨schema, heq, htest⟩ := exists_of_any_readText hread
  obtain ⟨hnested, hfaults⟩ := Bool.and_eq_true_iff.mp htest
  obtain ⟨file, ds, hparse, hentries, -⟩ := entries_of_readText heq
  exact ⟨schema, heq, of_decide_eq_true hnested, of_decide_eq_true hfaults, file, ds, hparse,
    hentries⟩

end ProtoSchema
