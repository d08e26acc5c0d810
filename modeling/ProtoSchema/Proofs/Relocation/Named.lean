/-
The names of trees at other places.

A moved file declares the same names, each at its new place.  So its table knows the same names
with the same kinds, references mean in it what they meant, and what is declared twice is
reported at the new places.
-/
import ProtoSchema.Proofs.Linking.Registered
import ProtoSchema.Proofs.Relocation.Assembled

namespace ProtoSchema

/-! ### Declarations -/

def Declared.moved (m : Relocation) (d : Declared) : Declared := { d with span := d.span.moved m }

section

variable (m : Relocation)

theorem packagesFrom_moved (s : Span) (scope : FullName) (names : List String) :
    packagesFrom (s.moved m) scope names = (packagesFrom s scope names).map (Declared.moved m) := by
  induction names generalizing scope with
  | nil => rfl
  | cons n ns ih =>
      rw [packagesFrom, packagesFrom, ih]
      rfl

theorem Package.declared_moved (p : Package) :
    (p.moved m).declared = p.declared.map (Declared.moved m) := by
  rw [declared, declared, moved, p.name.words_moved, p.name.span_moved, packagesFrom_moved]

theorem Field.declared_moved (scope : FullName) (f : Field) :
    (f.moved m).declared scope = (f.declared scope).map (Declared.moved m) := by
  obtain ⟨label, kind, name, number, options, s⟩ := f
  cases kind <;> rfl

/-- What moved declarations of some kind declare. -/
theorem flatMap_declared_moved {α : Type} {move : α → α} {declared : α → List Declared}
    (h : ∀ a, declared (move a) = (declared a).map (Declared.moved m)) (as : List α) :
    (as.map move).flatMap declared = (as.flatMap declared).map (Declared.moved m) := by
  rw [List.flatMap_map, List.map_flatMap]
  exact congrArg (List.flatMap · as) (funext h)

theorem Oneof.declared_moved (scope : FullName) (o : Oneof) :
    (o.moved m).declared scope = (o.declared scope).map (Declared.moved m) := by
  rw [declared, declared, List.map_cons, moved]
  exact congrArg (_ :: ·) (flatMap_declared_moved m (Field.declared_moved m scope) o.fields)

theorem Enum.declared_moved (scope : FullName) (e : Enum) :
    (e.moved m).declared scope = (e.declared scope).map (Declared.moved m) := by
  rw [declared, declared, List.map_cons, moved, List.map_map, List.map_map]
  rfl

theorem Extend.declared_moved (scope : FullName) (e : Extend) :
    (e.moved m).declared scope = (e.declared scope).map (Declared.moved m) := by
  rw [declared, declared, moved, List.map_map, List.map_map]
  rfl

theorem Service.declared_moved (scope : FullName) (s : Service) :
    (s.moved m).declared scope = (s.declared scope).map (Declared.moved m) := by
  rw [declared, declared, List.map_cons, moved, List.map_map, List.map_map]
  rfl

mutual

theorem Message.declared_moved (scope : FullName) : (d : Message) →
    (d.moved m).declared scope = (d.declared scope).map (Declared.moved m)
  | ⟨name, items, _, _, _, _⟩ => by
    rw [Message.moved, Message.declared, Message.declared, List.map_cons, Ident.text_moved,
      MessageItem.declaredAll_moved (scope.child name.text) items]
    rfl

theorem MessageItem.declaredAll_moved (scope : FullName) : (items : List MessageItem) →
    MessageItem.declaredAll scope (MessageItem.movedAll m items) =
      (MessageItem.declaredAll scope items).map (Declared.moved m)
  | [] => by
    rw [MessageItem.movedAll, MessageItem.declaredAll, List.map_nil]
  | i :: is => by
    rw [MessageItem.movedAll, MessageItem.declaredAll, MessageItem.declaredAll, List.map_append,
      MessageItem.declared_moved scope i, MessageItem.declaredAll_moved scope is]

theorem MessageItem.declared_moved (scope : FullName) : (i : MessageItem) →
    (i.moved m).declared scope = (i.declared scope).map (Declared.moved m)
  | .field f => by
    rw [MessageItem.moved, MessageItem.declared, MessageItem.declared, f.declared_moved]
  | .oneof o => by
    rw [MessageItem.moved, MessageItem.declared, MessageItem.declared, o.declared_moved]
  | .message d => by
    rw [MessageItem.moved, MessageItem.declared, MessageItem.declared,
      Message.declared_moved scope d]
  | .enum e => by
    rw [MessageItem.moved, MessageItem.declared, MessageItem.declared, e.declared_moved]
  | .extend e => by
    rw [MessageItem.moved, MessageItem.declared, MessageItem.declared, e.declared_moved]

end

theorem File.declared_moved (file : File) :
    (file.moved m).declared = file.declared.map (Declared.moved m) := by
  have hpackage : (file.package.map (Package.moved m)).toList.flatMap Package.declared =
      (file.package.toList.flatMap Package.declared).map (Declared.moved m) := by
    cases file.package with
    | none => rfl
    | some p => simp [p.declared_moved]
  simp only [declared, List.map_append, hpackage, moved, Package.scope_moved,
    flatMap_declared_moved m (Message.declared_moved m _),
    flatMap_declared_moved m (Enum.declared_moved m _),
    flatMap_declared_moved m (Extend.declared_moved m _),
    flatMap_declared_moved m (Service.declared_moved m _)]

/-! ### Tables -/

def Definition.moved (d : Definition) : Definition := { d with span := d.span.moved m }

def SymbolTable.moved (t : SymbolTable) : SymbolTable :=
  { t with entries := t.entries.map fun e => (e.1, e.2.moved m) }

namespace SymbolTable

theorem find?_moved (t : SymbolTable) (n : FullName) :
    (t.moved m).find? n = (t.find? n).map (Definition.moved m) := lookup_map _ n t.entries

theorem declare_moved (t : SymbolTable) (d : Declared) :
    (t.moved m).declare (d.moved m) =
      ((t.declare d).1.moved m, (t.declare d).2.map (Diagnostic.moved m)) := by
  unfold declare find?
  simp only [moved, Declared.moved, lookup_map]
  cases t.entries.lookup d.name with
  | none => rfl
  | some earlier =>
      simp only [Option.map_some, Definition.moved]
      by_cases hpackage : d.kind = .package ∧ earlier.kind = .package
      · refine (if_pos hpackage).trans ?_
        rw [if_pos hpackage]
        rfl
      · refine (if_neg hpackage).trans ?_
        rw [if_neg hpackage]
        rfl

theorem declareAll_moved (t : SymbolTable) (ds : List Declared) :
    (t.moved m).declareAll (ds.map (Declared.moved m)) =
      ((t.declareAll ds).1.moved m, (t.declareAll ds).2.map (Diagnostic.moved m)) := by
  induction ds generalizing t with
  | nil => rfl
  | cons d ds ih =>
      rw [List.map_cons, declareAll_cons, declareAll_cons, declare_moved, ih, List.map_append]

/-- The table of a moved file. -/
theorem ofFile_moved (file : File) :
    ofFile (file.moved m) =
      ((ofFile file).1.moved m, (ofFile file).2.map (Diagnostic.moved m)) := by
  rw [ofFile, file.declared_moved, ofFile]
  exact declareAll_moved m empty file.declared

end SymbolTable

end

/-- In a moved file names mean what they meant. -/
theorem File.moved_context (ch : Change) (hch : ch.silences = false) (file : File)
    (symbols : SymbolTable) :
    (file.context symbols).Changed ch
      ((file.moved ch.relocation).context (symbols.moved ch.relocation)) where
  dialect := rfl
  resolve := by
    refine SymbolTable.resolve_congr fun n => ?_
    rw [SymbolTable.kind?, SymbolTable.kind?, context, SymbolTable.find?_moved, Option.map_map]
    rfl
  isEnumValue _ _ := rfl
  hasImports := by
    rw [hch, Bool.or_false]
    exact congrArg (!·) List.isEmpty_map

theorem File.importPlaces_moved (m : Relocation) (file : File) (kind : ImportKind) :
    (file.moved m).importPlaces kind = file.importPlaces kind := by
  rw [importPlaces, moved, List.zipIdx_map, List.filterMap_map, importPlaces]
  refine congrArg (List.filterMap · file.imports.zipIdx) (funext fun i => ?_)
  obtain ⟨⟨kind', path, pathSpan, s⟩, place⟩ := i
  cases kind' <;> rfl

/-- A file at another place, with its own table, is described as it was, but at that place. -/
theorem File.describe_moved (ch : Change) (hch : ch.silences = false) (file : File) (name : String)
    (symbols : SymbolTable) :
    (file.moved ch.relocation).describe name (symbols.moved ch.relocation) =
      (file.describe name symbols).told ch (FileDescriptor.moved ch.relocation) := by
  have hpaths : (file.imports.map (Import.moved ch.relocation)).map Import.path =
      file.imports.map Import.path := by
    rw [List.map_map]
    rfl
  have hplaces : ∀ kind, ({ file with imports := file.imports.map (Import.moved ch.relocation) }
      : File).importPlaces kind = file.importPlaces kind :=
    file.importPlaces_moved ch.relocation
  refine (file.describe_changed ch name (file.imports.map (Import.moved ch.relocation))
    (file.moved_context ch hch symbols)).trans (Checked.ext ?_ rfl)
  rw [Checked.told, FileDescriptor.withImportsOf, hpaths, hplaces, hplaces]
  rfl

end ProtoSchema
