/-
Which names of an accepted message can clash.

What is declared in a message is declared in one scope: its fields and oneofs, the types and
extensions in it, and the values of its enums.  The table reports a name that is declared twice, so
in a file of which nothing is reported all these names are different.

The oneof of an optional field is declared nowhere.  It is made when the message is assembled, and
called as the field with an underscore in front; no table knows that name.  So it may be the name
of something else in the message, and this is the only way in which a name of a oneof can clash.
-/
import Mathlib.Data.List.Flatten
import Mathlib.Data.List.Nodup
import Mathlib.Data.List.Perm.Basic
import ProtoSchema.Proofs.Assembly.Rules

namespace ProtoSchema

open Checked

/-! ### Names of a message -/

namespace MessageDescriptor

/-- The names of all things in a message that are no oneofs. -/
def innerNames (d : MessageDescriptor) : List String :=
  d.fields.map FieldDescriptor.name ++ d.nested.map MessageDescriptor.name ++
    d.enums.map EnumDescriptor.name ++ d.enums.flatMap (·.values.map EnumValueDescriptor.name) ++
    d.extensions.map FieldDescriptor.name

def oneofNames (d : MessageDescriptor) : List String := d.oneofs.map OneofDescriptor.name

/-- The names of the oneofs of optional fields. -/
def presenceNames (d : MessageDescriptor) : List String :=
  (d.fields.filter (·.proto3Optional)).map fun f => "_" ++ f.name

/-- No oneof shares its name with another one, or with anything else in the message. -/
structure NamesApart (d : MessageDescriptor) : Prop where
  distinct : d.oneofNames.Nodup
  apart : ∀ name ∈ d.oneofNames, name ∉ d.innerNames

end MessageDescriptor

/-! ### Names that items declare -/

/-- The names that a field declares in its scope. -/
def Field.names (f : Field) : List String :=
  f.name.text :: if f.kind.isMap then [mapEntryName f.name.text] else []

/-- The names that an item declares in its scope. -/
def MessageItem.names : MessageItem → List String
  | .field f => f.names
  | .oneof o => o.name.text :: o.fields.flatMap Field.names
  | .message m => [m.name.text]
  | .enum e => e.name.text :: e.values.map (·.name.text)
  | .extend e => e.fields.map (·.name.text)

theorem Field.map_child_names (scope : FullName) (f : Field) :
    f.names.map scope.child = (f.declared scope).map Declared.name := by
  unfold names declared
  cases f.kind.isMap <;> rfl

/-- The names that an item declares in its scope are among all that it declares. -/
theorem MessageItem.sublist_declared (scope : FullName) (i : MessageItem) :
    (i.names.map scope.child).Sublist ((i.declared scope).map Declared.name) := by
  cases i with
  | field f =>
      rw [names, declared, f.map_child_names scope]
  | oneof o =>
      rw [names, declared, Oneof.declared, List.map_cons, List.map_cons, List.map_flatMap,
        List.map_flatMap]
      simp only [Field.map_child_names]
      exact .refl _
  | message m =>
      rw [names, declared, Message.declared_eq, List.map_cons, List.map_cons, List.map_nil]
      exact (List.nil_sublist _).cons_cons _
  | enum e =>
      rw [names, declared, Enum.declared, List.map_cons, List.map_cons, List.map_map, List.map_map]
      exact .refl _
  | extend e =>
      rw [names, declared, Extend.declared, List.map_map, List.map_map]
      exact .refl _

/-- So are the names that the items of a message declare in it. -/
theorem Message.sublist_declared (scope : FullName) (m : Message) :
    ((m.items.flatMap MessageItem.names).map (scope.child m.name.text).child).Sublist
      ((m.declared scope).map Declared.name) := by
  rw [declared_eq, List.map_cons, MessageItem.declaredAll_eq, List.map_flatMap, List.map_flatMap]
  exact (List.Sublist.flatMap_right _ fun i _ => i.sublist_declared _).cons _

theorem sublist_flatMap_of_mem {α β : Type} (f : α → List β) {as : List α} {a : α} (h : a ∈ as) :
    (f a).Sublist (as.flatMap f) := by
  rw [List.flatMap_def]
  exact List.sublist_flatten_of_mem (List.mem_map_of_mem h)

/-- What a held item declares is among what the file declares, each thing once. -/
theorem File.Holds.sublist_declared {file : File} {scope : FullName} {item : MessageItem}
    (h : file.Holds scope item) : (item.declared scope).Sublist file.declared := by
  unfold File.declared
  induction h with
  | message hm =>
      refine (sublist_flatMap_of_mem (Message.declared _) hm).trans ?_
      simp only [List.append_assoc]
      exact (List.sublist_append_left _ _).trans (List.sublist_append_right _ _)
  | enum he =>
      refine (sublist_flatMap_of_mem (Enum.declared _) he).trans ?_
      simp only [List.append_assoc]
      exact ((List.sublist_append_left _ _).trans (List.sublist_append_right _ _)).trans
        (List.sublist_append_right _ _)
  | extend he =>
      refine (sublist_flatMap_of_mem (Extend.declared _) he).trans ?_
      exact (List.sublist_append_right _ _).trans (List.sublist_append_left _ _)
  | @within scope m item _ hitem ih =>
      refine .trans ?_ ih
      rw [MessageItem.declared, Message.declared_eq, MessageItem.declaredAll_eq]
      exact (sublist_flatMap_of_mem _ hitem).cons _

/-- The names that are declared in a message are different if no name is declared twice. -/
theorem File.Holds.nodup_names {file : File} {scope : FullName} {m : Message}
    (h : file.Holds scope (.message m)) (hnames : (file.declared.map Declared.name).Nodup) :
    (m.items.flatMap MessageItem.names).Nodup := by
  have hsub := (m.sublist_declared scope).trans (h.sublist_declared.map Declared.name)
  exact .of_map _ (hsub.nodup hnames)

/-! ### Names that descriptors give away -/

namespace Context

variable (ctx : Context) (scope : FullName)

theorem names_entry (f : Field) :
    (ctx.mapEntry? scope f).value.toList.map MessageDescriptor.name =
      if f.kind.isMap then [mapEntryName f.name.text] else [] := by
  unfold mapEntry?
  cases f.kind <;> rfl

theorem names_enum (e : Enum) :
    (ctx.enum e).value.name = e.name.text ∧
      (ctx.enum e).value.values.map EnumValueDescriptor.name = e.values.map (·.name.text) := by
  unfold Context.enum
  simp only [value_bind, value_each, value_pure, List.map_map]
  exact ⟨trivial, rfl⟩

/-- The names that items give to what they contribute to a message, kind by kind. -/
def namesByKind : List (MessageItem → List String) :=
  [fun i => i.oneofs.map (·.name.text),
    fun i => (i.members 0).map (·.field.name.text),
    fun i => (ctx.nestedOf scope i).map MessageDescriptor.name,
    fun i => (ctx.enumsOf i).map EnumDescriptor.name,
    fun i => (ctx.enumsOf i).flatMap (·.values.map EnumValueDescriptor.name),
    fun i => (ctx.extensionsOf scope i).map FieldDescriptor.name]

/-- What an item contributes has names that the item declares. -/
theorem sublist_names (i : MessageItem) :
    ((ctx.namesByKind scope).flatMap (· i)).Sublist i.names := by
  simp only [namesByKind, List.flatMap_cons, List.flatMap_nil, List.append_nil]
  cases i with
  | field f =>
      simp only [MessageItem.oneofs, MessageItem.members, nestedOf, enumsOf, extensionsOf,
        names_entry]
      simp [MessageItem.names, Field.names]
  | oneof o =>
      -- A map within a oneof declares a name for its entries, but it contributes no entries.
      have hfields : (o.fields.map (·.name.text)).Sublist (o.fields.flatMap Field.names) := by
        rw [← List.flatMap_singleton' (o.fields.map _), List.flatMap_map]
        exact List.Sublist.flatMap_right _ fun f _ => (List.nil_sublist _).cons_cons _
      simpa [MessageItem.oneofs, MessageItem.members, nestedOf, enumsOf, extensionsOf,
        MessageItem.names, Function.comp_def] using hfields
  | message m =>
      simp [MessageItem.oneofs, MessageItem.members, nestedOf, enumsOf, extensionsOf,
        MessageItem.names, name_message]
  | enum e =>
      obtain ⟨hname, hvalues⟩ := ctx.names_enum e
      simp [MessageItem.oneofs, MessageItem.members, nestedOf, enumsOf, extensionsOf,
        MessageItem.names, hname, hvalues]
  | extend e =>
      simp only [MessageItem.oneofs, MessageItem.members, nestedOf, enumsOf, extensionsOf,
        MessageItem.names, value_extensions]
      simp [extension, Checked.name_field, Function.comp_def]

theorem names_membersFrom (items : List MessageItem) : ∀ place : Nat,
    (MessageItem.membersFrom place items).map (·.field.name.text) =
      items.flatMap fun i => (i.members 0).map (·.field.name.text) := by
  induction items with
  | nil => intro place; rfl
  | cons i is ih =>
      intro place
      rw [MessageItem.membersFrom, List.map_append, ih, List.flatMap_cons]
      congr 1
      cases i <;> simp [MessageItem.members]

/-- Fields have the names of the members, and the same of them get oneofs of their own. -/
theorem marks_message (m : Message) :
    (ctx.message scope m).value.fields.map (fun f => (f.name, f.proto3Optional)) =
      m.fieldMembers.map fun x => (x.field.name.text, x.tracksPresence ctx.dialect) := by
  rw [(ctx.assembles_message scope m).fields]
  refine List.ext_getElem? fun k => ?_
  rw [List.getElem?_map, List.getElem?_map, List.getElem?_mapIdx, Option.map_map]
  simp only [Function.comp_def, name_memberAt]
  rfl

theorem names_fields (m : Message) :
    (ctx.message scope m).value.fields.map FieldDescriptor.name =
      m.fieldMembers.map (·.field.name.text) := by
  have h := congrArg (List.map Prod.fst) (ctx.marks_message scope m)
  rwa [List.map_map, List.map_map] at h

theorem presenceNames_message (m : Message) :
    (ctx.message scope m).value.presenceNames =
      (m.tracked ctx.dialect).map fun x => x.ownOneof.name := by
  have h := congrArg (fun l => (l.filter (·.2)).map fun p : String × Bool => "_" ++ p.1)
    (ctx.marks_message scope m)
  simp only [List.filter_map, List.map_map] at h
  exact h

theorem oneofNames_message (m : Message) :
    (ctx.message scope m).value.oneofNames =
      m.oneofs.map (·.name.text) ++ (ctx.message scope m).value.presenceNames := by
  rw [presenceNames_message, MessageDescriptor.oneofNames, (ctx.assembles_message scope m).oneofs,
    List.map_append, List.map_map, List.map_map]
  rfl

/-- Names of a message, oneofs of optional fields apart, are those that its items contribute. -/
theorem names_message (m : Message) :
    m.oneofs.map (·.name.text) ++ (ctx.message scope m).value.innerNames =
      (ctx.namesByKind (scope.child m.name.text)).flatMap (m.items.flatMap ·) := by
  obtain ⟨hnested, henums, hextensions⟩ := ctx.contents_message scope m
  simp only [namesByKind, List.flatMap_cons, List.flatMap_nil, List.append_nil,
    MessageDescriptor.innerNames, List.append_assoc]
  rw [names_fields, hnested, henums, hextensions, Message.fieldMembers, names_membersFrom,
    Message.oneofs]
  simp only [List.map_flatMap, List.flatMap_assoc]

end Context

/-- Lists made of the same parts, sorted in two ways. -/
theorem perm_flatMap_swap {α β : Type} (fs : List (α → List β)) (as : List α) :
    (fs.flatMap (as.flatMap ·)).Perm (as.flatMap fun a => fs.flatMap (· a)) := by
  induction fs with
  | nil => simp
  | cons f fs ih =>
      simp only [List.flatMap_cons]
      exact (ih.append_left _).trans (List.flatMap_append_perm as f _)

/-! ### Clashes -/

/--
The oneofs of a message have some declared names, and behind them the names of those of optional
fields.  Declared names are not repeated in the message, and the others not among themselves.
-/
structure MessageDescriptor.IsNamed (d : MessageDescriptor) (declared : List String) : Prop where
  oneofs : d.oneofNames = declared ++ d.presenceNames
  nodup_declared : (declared ++ d.innerNames).Nodup
  nodup_presence : d.presenceNames.Nodup

/-- Then a name of a oneof can only clash if it is that of an optional field. -/
theorem MessageDescriptor.IsNamed.namesApart_iff {d : MessageDescriptor} {declared : List String}
    (h : d.IsNamed declared) :
    d.NamesApart ↔ ∀ name ∈ d.presenceNames, name ∉ declared ++ d.innerNames := by
  obtain ⟨hdeclared, -, hapart⟩ := List.nodup_append.mp h.nodup_declared
  constructor
  · intro hd name hname hmem
    have honeofs := hd.distinct
    rw [h.oneofs, List.nodup_append] at honeofs
    rcases List.mem_append.mp hmem with hmem | hmem
    · exact honeofs.2.2 name hmem name hname rfl
    · exact hd.apart name (h.oneofs ▸ List.mem_append_right _ hname) hmem
  · intro hpresence
    constructor
    · rw [h.oneofs, List.nodup_append]
      refine ⟨hdeclared, h.nodup_presence, fun a ha b hb hab => ?_⟩
      exact hpresence b hb (List.mem_append_left _ (hab ▸ ha))
    · intro name hname hmem
      rw [h.oneofs] at hname
      rcases List.mem_append.mp hname with hname | hname
      · exact hapart name hname name hmem rfl
      · exact hpresence name hname (List.mem_append_right _ hmem)

/-- Fields with different names have oneofs with different names. -/
theorem MessageDescriptor.nodup_presenceNames {d : MessageDescriptor}
    (h : (d.fields.map FieldDescriptor.name).Nodup) : d.presenceNames.Nodup := by
  have hnames : ((d.fields.filter (·.proto3Optional)).map FieldDescriptor.name).Nodup :=
    (List.filter_sublist.map _).nodup h
  have hinj : Function.Injective (fun name : String => "_" ++ name) :=
    fun _ _ heq => String.append_right_inj "_" |>.mp heq
  have := hnames.map hinj
  rwa [List.map_map] at this

namespace Context

variable (ctx : Context) (scope : FullName)

theorem isNamed_message {m : Message} (h : (m.items.flatMap MessageItem.names).Nodup) :
    (ctx.message scope m).value.IsNamed (m.oneofs.map (·.name.text)) := by
  have hinner : (m.oneofs.map (·.name.text) ++ (ctx.message scope m).value.innerNames).Nodup := by
    -- The descriptor has the names kind by kind; what is declared comes item by item.
    rw [names_message, (perm_flatMap_swap _ m.items).nodup_iff]
    exact (List.Sublist.flatMap_right _ fun i _ => ctx.sublist_names _ i).nodup h
  refine ⟨ctx.oneofNames_message scope m, hinner, MessageDescriptor.nodup_presenceNames ?_⟩
  have hfields := (List.nodup_append.mp hinner).2.1
  simp only [MessageDescriptor.innerNames, List.append_assoc] at hfields
  exact (List.nodup_append.mp hfields).1

theorem isNamed_entry {ctx : Context} {scope : FullName} {f : Field} {d : MessageDescriptor}
    (hd : (ctx.mapEntry? scope f).value = some d) : d.IsNamed [] := by
  unfold mapEntry? at hd
  split at hd
  · cases hd
  · obtain rfl := Option.some.inj hd
    exact ⟨rfl, show ["key", "value"].Nodup by decide, List.nodup_nil⟩

end Context

/--
**A name of a oneof clashes only if the oneof is that of an optional field.**  In an accepted file
all declared names of a message are different, and so are the names of the oneofs that are made for
optional fields.  That these are not among the others is not checked: the names of the oneofs are
apart just if it happens to be so.
-/
theorem namesApart_iff_of_readText {name source : String} {schema : Schema}
    (h : readText name source = .ok schema) (hclean : schema.report.diagnostics = [])
    {n : FullName} {d : MessageDescriptor} (hd : schema.descriptor.HasMessage n d) :
    ∃ declared, d.IsNamed declared ∧
      (d.NamesApart ↔ ∀ name ∈ d.presenceNames, name ∉ declared ++ d.innerNames) := by
  obtain ⟨file, -, hnames, -, hdesc⟩ := clean_of_readText h hclean
  rw [hdesc] at hd
  have hnodup := SymbolTable.reports_eq_nil_iff.mp hnames
  cases File.gives_of_hasMessage hd with
  | @message scope m hm =>
      have hnamed := (file.context (SymbolTable.ofFile file).1).isNamed_message scope
        (hm.nodup_names hnodup)
      exact ⟨_, hnamed, hnamed.namesApart_iff⟩
  | entry hf hentry =>
      have hnamed := Context.isNamed_entry hentry
      exact ⟨_, hnamed, hnamed.namesApart_iff⟩

/-- A message whose optional fields have oneofs that are called like nothing else. -/
def apartText : String :=
  "syntax = \"proto3\"; message M \x7b oneof a_ \x7b int32 b = 2; \x7d optional int32 a = 1;
  enum E \x7b _b = 0; \x7d \x7d"

theorem namesApart_iff_of_readText_apart :
    ∃ schema n d, readText "apart.proto" apartText = .ok schema ∧
      schema.report.diagnostics = [] ∧ schema.descriptor.HasMessage n d ∧
      d.presenceNames = ["_a"] ∧ ∃ declared, d.IsNamed declared ∧
        (d.NamesApart ↔ ∀ name ∈ d.presenceNames, name ∉ declared ++ d.innerNames) := by
  have hread : ((readText "apart.proto" apartText).toOption.any fun s =>
      s.report.diagnostics.isEmpty &&
        (MessageDescriptor.walkAll s.descriptor.scope s.descriptor.messages).any fun p =>
          p.2.presenceNames = ["_a"]) = true := by
    decide +kernel
  obtain ⟨schema, heq, htest⟩ := exists_of_any_readText hread
  obtain ⟨hclean, hany⟩ := Bool.and_eq_true_iff.mp htest
  obtain ⟨⟨n, d⟩, hd, hnames⟩ := List.any_eq_true.mp hany
  have hclean := List.isEmpty_iff.mp hclean
  exact ⟨schema, n, d, heq, hclean, hd, of_decide_eq_true hnames,
    namesApart_iff_of_readText heq hclean hd⟩

/-- A message that declares a oneof under the name that the oneof of its optional field gets. -/
def clashText : String :=
  "syntax = \"proto3\"; message M \x7b oneof _a \x7b int32 b = 2; \x7d optional int32 a = 1; \x7d"

theorem exists_not_namesApart :
    ∃ schema n d, readText "test.proto" clashText = .ok schema ∧
      schema.report.diagnostics = [] ∧ schema.descriptor.HasMessage n d ∧
      d.oneofNames = ["_a", "_a"] ∧ ¬d.NamesApart := by
  have hread : ((readText "test.proto" clashText).toOption.any fun s =>
      s.report.diagnostics.isEmpty &&
        (MessageDescriptor.walkAll s.descriptor.scope s.descriptor.messages).any fun p =>
          p.2.oneofNames = ["_a", "_a"]) = true := by
    decide +kernel
  obtain ⟨schema, heq, htest⟩ := exists_of_any_readText hread
  obtain ⟨hclean, hany⟩ := Bool.and_eq_true_iff.mp htest
  obtain ⟨⟨n, d⟩, hd, hnames⟩ := List.any_eq_true.mp hany
  have hnames : d.oneofNames = ["_a", "_a"] := of_decide_eq_true hnames
  refine ⟨schema, n, d, heq, List.isEmpty_iff.mp hclean, hd, hnames, fun hapart => ?_⟩
  have hdistinct := hapart.distinct
  rw [hnames] at hdistinct
  exact absurd hdistinct (by decide)

end ProtoSchema
