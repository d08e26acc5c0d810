/-
A descriptor without diagnostics is closed.

Every reference in it is a dot and the full name of a type that it holds itself, and there is
only one such type.  Three walks have to agree for this.  The table is made from the names that
are declared, references are resolved in the scopes of the tree, and where a type stands in the
descriptor decides what it is called.  The first two meet in the table, and the first and the
last one name the same types.

What is left is to go from chains of names to texts.  A text tells its chain because the names
are words, and words hold no dots.
-/
import ProtoSchema.Proofs.Linking.References
import ProtoSchema.Proofs.Reading

namespace ProtoSchema

open Checked MessageDescriptor

/-! ### Closed descriptors -/

/-- The number of the type of a field, if it has one. -/
def FieldDescriptor.typeNumber? (f : FieldDescriptor) : Option Nat := f.type.bind FieldType.number?

/-- The name of the type of a field, if it has one. -/
def FieldDescriptor.typeName? (f : FieldDescriptor) : Option String :=
  (f.type.bind FieldType.name?).map TypeRef.text

namespace FileDescriptor

/-- The fields and extensions of a file, at any depth. -/
def allFields (d : FileDescriptor) : List FieldDescriptor :=
  fieldsAll d.scope d.messages ++ d.extensions

/-- The methods of a file. -/
def methods (d : FileDescriptor) : List MethodDescriptor :=
  d.services.flatMap ServiceDescriptor.methods

/-- A dot and the full name of exactly one type in the file, which is of some kind. -/
def IsReference (d : FileDescriptor) (text : String) (k : DefinitionKind) : Prop :=
  ∃ n, d.types.filter (fun t => "." ++ t.1.text = text) = [(n, k)]

/-- All references lead to types in the file, to each where such a type may stand. -/
structure IsClosed (d : FileDescriptor) : Prop where
  /-- The name of a type is there for messages and enums, and for nothing else. -/
  named : ∀ f ∈ d.allFields,
    f.typeName?.isSome = true ↔ f.typeNumber? = some 11 ∨ f.typeNumber? = some 14
  types : ∀ f ∈ d.allFields, ∀ text, f.typeName? = some text →
    d.IsReference text .message ∧ f.typeNumber? = some 11 ∨
      d.IsReference text .enum ∧ f.typeNumber? = some 14
  extendees : ∀ f ∈ d.allFields, ∀ r, f.extendee = some r → d.IsReference r.text .message
  methods : ∀ m ∈ d.methods, d.IsReference m.input.text .message ∧
    d.IsReference m.output.text .message

end FileDescriptor

/-! ### Names of declared types -/

/-- A name that is declared by words in a scope. -/
structure FullName.IsDeclared (n : FullName) : Prop where
  undotted : n.IsUndotted
  ne_root : n.chain ≠ []

theorem FullName.IsUndotted.isDeclared {scope : FullName} {name : String}
    (hs : scope.IsUndotted) (hn : Undotted name) : (scope.child name).IsDeclared :=
  ⟨hs.child hn, List.cons_ne_nil _ _⟩

/-- The declared types of some declarations have names made of words. -/
def HaveDeclaredNames (ds : List Declared) : Prop := ∀ t ∈ declaredTypes ds, t.1.IsDeclared

namespace HaveDeclaredNames

variable {scope : FullName}

theorem append {ds es : List Declared} (hd : HaveDeclaredNames ds) (he : HaveDeclaredNames es) :
    HaveDeclaredNames (ds ++ es) := by
  intro t ht
  rw [declaredTypes_append] at ht
  rcases List.mem_append.mp ht with ht | ht
  · exact hd t ht
  · exact he t ht

theorem flatMap {α : Type} {f : α → List Declared} {as : List α}
    (h : ∀ a ∈ as, HaveDeclaredNames (f a)) : HaveDeclaredNames (as.flatMap f) := by
  intro t ht
  rw [declaredTypes_flatMap] at ht
  obtain ⟨a, ha, hmem⟩ := List.mem_flatMap.mp ht
  exact h a ha t hmem

theorem field (hs : scope.IsUndotted) {f : Field} (hf : f.HasWords) :
    HaveDeclaredNames (f.declared scope) := by
  intro t ht
  unfold Field.declared at ht
  rw [declaredTypes_cons_of_not_type rfl] at ht
  split at ht
  · obtain rfl := List.mem_singleton.mp ht
    exact hs.isDeclared (undotted_of_isWord hf.name).mapEntryName
  · exact absurd ht List.not_mem_nil

theorem oneof (hs : scope.IsUndotted) {o : Oneof} (ho : o.HasWords) :
    HaveDeclaredNames (o.declared scope) := by
  intro t ht
  unfold Oneof.declared at ht
  rw [declaredTypes_cons_of_not_type rfl] at ht
  exact flatMap (fun f hf => field hs (ho f hf)) t ht

theorem enum (hs : scope.IsUndotted) {e : Enum} (he : e.HasWords) :
    HaveDeclaredNames (e.declared scope) := by
  intro t ht
  rw [Enum.declaredTypes_eq] at ht
  obtain rfl := List.mem_singleton.mp ht
  exact hs.isDeclared (undotted_of_isWord he)

mutual

theorem message (scope : FullName) (hs : scope.IsUndotted) :
    ∀ m : Message, m.HasWords → HaveDeclaredNames (m.declared scope)
  | ⟨name, items, _, _, _, _⟩, hw, t, ht => by
      rw [Message.HasWords] at hw
      rw [Message.declared, declaredTypes_cons_of_type rfl] at ht
      have hname := undotted_of_isWord hw.1
      rcases List.mem_cons.mp ht with rfl | ht
      · exact hs.isDeclared hname
      · exact messageItems _ (hs.child hname) items hw.2 t ht

theorem messageItems (scope : FullName) (hs : scope.IsUndotted) :
    ∀ items : List MessageItem, MessageItem.HaveWords items →
      HaveDeclaredNames (MessageItem.declaredAll scope items)
  | [], _, _, ht => absurd ht List.not_mem_nil
  | i :: is, hw, t, ht => by
      rw [MessageItem.HaveWords] at hw
      rw [MessageItem.declaredAll] at ht
      exact append (messageItem scope hs i hw.1) (messageItems scope hs is hw.2) t ht

theorem messageItem (scope : FullName) (hs : scope.IsUndotted) :
    ∀ i : MessageItem, i.HasWords → HaveDeclaredNames (i.declared scope)
  | .field f, hw => by
      rw [MessageItem.HasWords] at hw
      rw [MessageItem.declared]
      exact field hs hw
  | .oneof o, hw => by
      rw [MessageItem.HasWords] at hw
      rw [MessageItem.declared]
      exact oneof hs hw
  | .message m, hw => by
      rw [MessageItem.HasWords] at hw
      rw [MessageItem.declared]
      exact message scope hs m hw
  | .enum e, hw => by
      rw [MessageItem.HasWords] at hw
      rw [MessageItem.declared]
      exact enum hs hw
  | .extend e, _ => by
      intro t ht
      rw [MessageItem.declared, Extend.declaredTypes_eq] at ht
      exact absurd ht List.not_mem_nil

end

end HaveDeclaredNames

theorem File.HasWords.scope {file : File} (h : file.HasWords) :
    (Package.scope file.package).IsUndotted := by
  have hpackage := h.package
  unfold Package.scope
  split
  · rename_i p heq
    rw [heq] at hpackage
    exact FullName.isUndotted_root.descend (undotted_of_isLegal (hpackage p rfl))
  · exact FullName.isUndotted_root

theorem File.HasWords.haveDeclaredNames {file : File} (h : file.HasWords) :
    HaveDeclaredNames file.declared := by
  intro t ht
  rw [File.declaredTypes_eq] at ht
  rcases List.mem_append.mp ht with ht | ht
  · exact HaveDeclaredNames.flatMap
      (fun m hm => .message _ h.scope m (h.messages m hm)) t ht
  · obtain ⟨e, he, rfl⟩ := List.mem_map.mp ht
    exact h.scope.isDeclared (undotted_of_isWord (h.enums e he))

/-! ### From chains to texts -/

/-- Where keys do not repeat, only one element has the key of a given one. -/
theorem filter_eq_singleton {α β : Type} [DecidableEq β] {key : α → β} {as : List α}
    (h : (as.map key).Nodup) {a : α} (ha : a ∈ as) :
    as.filter (fun b => key b = key a) = [a] := by
  induction as with
  | nil => exact absurd ha List.not_mem_nil
  | cons b as ih =>
      rw [List.map_cons, List.nodup_cons] at h
      rcases List.mem_cons.mp ha with rfl | ha
      · have hrest : as.filter (fun b => key b = key a) = [] := by
          refine List.filter_eq_nil_iff.mpr fun c hc heq => h.1 ?_
          rw [← of_decide_eq_true heq]
          exact List.mem_map_of_mem hc
        rw [List.filter_cons_of_pos (by simp), hrest]
      · have hne : key b ≠ key a := by
          intro heq
          rw [heq] at h
          exact h.1 (List.mem_map_of_mem ha)
        rw [List.filter_cons_of_neg (by simpa using hne), ih h.2 ha]

/-- Types whose names differ have names whose texts differ. -/
theorem nodup_texts {T : List (FullName × DefinitionKind)} (hT : ∀ t ∈ T, t.1.IsDeclared)
    (h : (T.map Prod.fst).Nodup) : (T.map fun t => "." ++ t.1.text).Nodup := by
  rw [List.nodup_iff_pairwise_ne, List.pairwise_map] at h ⊢
  refine h.imp_of_mem fun {t u} ht hu hne heq => hne ?_
  have htext : t.1.text = u.1.text := by
    have hlist := congrArg String.toList heq
    rw [String.toList_append, String.toList_append] at hlist
    exact String.toList_inj.mp (List.append_cancel_left hlist)
  exact FullName.text_injective (hT t ht).undotted (hT u hu).undotted (hT t ht).ne_root
    (hT u hu).ne_root htext

theorem FileDescriptor.isReference {d : FileDescriptor} {T : List (FullName × DefinitionKind)}
    (hperm : d.types.Perm T) (hT : ∀ t ∈ T, t.1.IsDeclared) (h : (T.map Prod.fst).Nodup)
    {n : FullName} {k : DefinitionKind} (hmem : (n, k) ∈ T) :
    d.IsReference (TypeRef.resolved n).text k := by
  have hnodup := (hperm.map fun t => "." ++ t.1.text).nodup_iff.mpr (nodup_texts hT h)
  exact ⟨n, filter_eq_singleton hnodup (hperm.mem_iff.mpr hmem)⟩

/-! ### Descriptors of sources -/

/-- What a file without imports refers to it declares. -/
theorem File.links {file : File} (himports : file.imports = []) :
    (file.context (SymbolTable.ofFile file).1).Links (declaredTypes file.declared) where
  hasImports := by
    unfold File.context
    rw [himports]
    rfl
  isType := by
    intro n k hmem
    have htype := (mem_declaredTypes.mp hmem).1
    cases k with
    | message => exact Or.inl rfl
    | enum => exact Or.inr rfl
    | _ => cases htype
  resolve := fun _ _ _ _ hs hn h => mem_declaredTypes_of_resolve hs hn h

section

variable {file : File} {name : String} {ctx : Context} {T : List (FullName × DefinitionKind)}

/-- All fields of the descriptor of a file are linked. -/
theorem File.isLinked_allFields {symbols : SymbolTable} (hw : file.HasWords)
    (hl : (file.context symbols).Links (declaredTypes file.declared))
    (hclean : (file.describe name symbols).Clean) :
    ∀ f ∈ (file.describe name symbols).value.allFields,
      f.IsLinked (declaredTypes file.declared) := by
  have hsub : ∀ m ∈ file.messages,
      declaredTypes (m.declared (Package.scope file.package)) ⊆ declaredTypes file.declared := by
    intro m hm t ht
    rw [File.declaredTypes_eq, declaredTypes_flatMap]
    exact List.mem_append_left _ (List.mem_flatMap.mpr ⟨m, hm, ht⟩)
  intro f hf
  unfold FileDescriptor.allFields at hf
  rw [File.scope_describe] at hf
  unfold File.describe at hf hclean
  simp only [clean_bind, clean_each] at hclean
  simp only [value_bind, value_each, value_pure] at hf
  rcases List.mem_append.mp hf with hf | hf
  · unfold fieldsAll at hf
    rw [walkAll_eq, List.flatMap_map, List.flatMap_assoc] at hf
    obtain ⟨m, hm, hmem⟩ := List.mem_flatMap.mp hf
    refine hl.message _ hw.scope m (hw.messages m hm) (hsub m hm) (hclean.1 m hm) f ?_
    unfold fieldsAll
    rw [walkAll_eq, List.flatMap_cons, List.flatMap_nil, List.append_nil]
    exact hmem
  · obtain ⟨ds, hds, hmem⟩ := List.mem_flatten.mp hf
    obtain ⟨e, he, rfl⟩ := List.mem_map.mp hds
    exact hl.extensions hw.scope (hw.extendBlocks e he) (hclean.2.2.1 e he) f hmem

/-- The types of all methods of a file are messages. -/
theorem File.isMessageAmong_methods {symbols : SymbolTable} (hw : file.HasWords)
    (hl : (file.context symbols).Links T) (hclean : (file.describe name symbols).Clean) :
    ∀ m ∈ (file.describe name symbols).value.methods,
      m.input.IsMessageAmong T ∧ m.output.IsMessageAmong T := by
  intro d hd
  unfold FileDescriptor.methods at hd
  unfold File.describe at hd hclean
  simp only [clean_bind, clean_each] at hclean
  simp only [value_bind, value_each, value_pure, List.flatMap_map] at hd
  obtain ⟨s, hs, hmem⟩ := List.mem_flatMap.mp hd
  have hservice := hclean.2.2.2.1 s hs
  unfold Context.service at hservice hmem
  simp only [clean_bind, clean_each] at hservice
  simp only [value_bind, value_each, value_pure] at hmem
  obtain ⟨m, hm, rfl⟩ := List.mem_map.mp hmem
  have hmethod := hservice.1 m hm
  have hwords := hw.services s hs m hm
  unfold Context.method at hmethod ⊢
  simp only [clean_bind] at hmethod
  exact ⟨hl.messageType hw.scope hwords.input hmethod.1,
    hl.messageType hw.scope hwords.output hmethod.2.1⟩

end

/--
**The descriptor of a source without imports and without diagnostics is closed.**  Every
reference in it, wherever it stands, is the name of exactly one type in it, of the kind that the
place asks for.
-/
theorem isClosed_of_readText {name source : String} {schema : Schema}
    (h : readText name source = .ok schema) (hclean : schema.report.diagnostics = [])
    (hdeps : schema.descriptor.dependencies = []) : schema.descriptor.IsClosed := by
  obtain ⟨file, hparse, hdup, hrules, hdesc⟩ := clean_of_readText h hclean
  have hw := hasWords_of_parseFile hparse
  have himports : file.imports = [] := by
    rw [hdesc] at hdeps
    exact List.map_eq_nil_iff.mp hdeps
  have hl := File.links himports
  -- What the links of the file resolve to is declared, and a clean table declares no name twice.
  have href : ∀ n k, (n, k) ∈ declaredTypes file.declared →
      schema.descriptor.IsReference (TypeRef.resolved n).text k := by
    intro n k hmem
    rw [hdesc]
    exact FileDescriptor.isReference (File.types_describe hrules) hw.haveDeclaredNames
      (SymbolTable.nodup_declaredTypes hdup) hmem
  have hfields := File.isLinked_allFields hw hl hrules
  rw [← hdesc] at hfields
  refine ⟨fun f hf => ?_, fun f hf text htext => ?_, fun f hf r hr => ?_, fun m hm => ?_⟩
  · have htype := (hfields f hf).type
    unfold FieldDescriptor.typeName? FieldDescriptor.typeNumber?
    cases ht : f.type with
    | none => simp
    | some t =>
        cases t with
        | scalar s => cases s <;> simp [FieldType.name?, FieldType.number?]
        | message n => simp [FieldType.name?, FieldType.number?]
        | enum n => simp [FieldType.name?, FieldType.number?]
        | unknown n => exact absurd (htype _ ht) id
  · have htype := (hfields f hf).type
    unfold FieldDescriptor.typeName? at htext
    unfold FieldDescriptor.typeNumber?
    cases ht : f.type with
    | none => rw [ht] at htext; cases htext
    | some t =>
        rw [ht] at htext
        cases t with
        | scalar s => cases htext
        | message n =>
            obtain rfl := Option.some.inj htext
            exact Or.inl ⟨href n .message (htype _ ht), rfl⟩
        | enum n =>
            obtain rfl := Option.some.inj htext
            exact Or.inr ⟨href n .enum (htype _ ht), rfl⟩
        | unknown n => exact absurd (htype _ ht) id
  · obtain ⟨n, rfl, hmem⟩ := (hfields f hf).extendee r hr
    exact href n .message hmem
  · rw [hdesc] at hm
    obtain ⟨⟨n, hn, hmem⟩, ⟨n', hn', hmem'⟩⟩ := File.isMessageAmong_methods hw hl hrules m hm
    rw [hn, hn']
    exact ⟨href n .message hmem, href n' .message hmem'⟩

/-- A file whose references lead from a map, an extension and a method to scopes around them. -/
def shopText : String :=
  "package p; message O \x7b extensions 9; message I \x7b \x7d map<bool, I> i = 1;
  extend O \x7b repeated E e = 9; \x7d \x7d enum E \x7b R = 0; \x7d
  service S \x7b rpc T (O) returns (.p.O.I); \x7d"

theorem isClosed_of_readText_shop :
    ∃ schema, readText "shop.proto" shopText = .ok schema ∧ schema.report.diagnostics = [] ∧
      schema.descriptor.dependencies = [] ∧ schema.descriptor.IsClosed := by
  have hread : ((readText "shop.proto" shopText).toOption.any fun s =>
      s.report.diagnostics.isEmpty && s.descriptor.dependencies.isEmpty) = true := by
    decide +kernel
  obtain ⟨schema, heq, htest⟩ := exists_of_any_readText hread
  obtain ⟨hclean, hdeps⟩ := Bool.and_eq_true_iff.mp htest
  have hclean := List.isEmpty_iff.mp hclean
  have hdeps := List.isEmpty_iff.mp hdeps
  exact ⟨schema, heq, hclean, hdeps, isClosed_of_readText heq hclean hdeps⟩

end ProtoSchema
