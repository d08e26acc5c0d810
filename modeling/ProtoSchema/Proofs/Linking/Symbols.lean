/-
What the table of a file says about types.

The table is exact, so a name that it knows as a type is the name of a declared type, and if
nothing was declared twice, of exactly one.  Resolving a reference only ever gives such a name: it
tries names in scopes from the inside outwards, and whichever it settles on, it has asked the
table for exactly that name.

That last point needs names without dots.  The table ignores a dot at the front of a name that
it is asked for, and only for names without one is this the name itself.
-/
import ProtoSchema.Proofs.Linking.Registered
import ProtoSchema.Proofs.Linking.Words

namespace ProtoSchema

/-! ### Declared types -/

/-- The name and the kind of a declaration of a type. -/
def Declared.type? (d : Declared) : Option (FullName × DefinitionKind) :=
  if d.kind.isType then some (d.name, d.kind) else none

/-- The types among some declarations. -/
def declaredTypes (ds : List Declared) : List (FullName × DefinitionKind) :=
  ds.filterMap Declared.type?

theorem mem_declaredTypes {ds : List Declared} {n : FullName} {k : DefinitionKind} :
    (n, k) ∈ declaredTypes ds ↔ k.isType = true ∧ ∃ d ∈ ds, d.name = n ∧ d.kind = k := by
  unfold declaredTypes
  rw [List.mem_filterMap]
  constructor
  · intro h
    obtain ⟨d, hd, heq⟩ := h
    unfold Declared.type? at heq
    split at heq
    · rename_i htype
      obtain ⟨rfl, rfl⟩ := Prod.mk.inj (Option.some.inj heq)
      exact ⟨htype, d, hd, rfl, rfl⟩
    · cases heq
  · intro h
    obtain ⟨htype, d, hd, rfl, rfl⟩ := h
    exact ⟨d, hd, if_pos htype⟩

theorem declaredTypes_cons_of_type {d : Declared} (h : d.kind.isType = true)
    (ds : List Declared) : declaredTypes (d :: ds) = (d.name, d.kind) :: declaredTypes ds :=
  List.filterMap_cons_some (if_pos h)

theorem declaredTypes_cons_of_not_type {d : Declared} (h : d.kind.isType = false)
    (ds : List Declared) : declaredTypes (d :: ds) = declaredTypes ds :=
  List.filterMap_cons_none (if_neg (Bool.eq_false_iff.mp h))

theorem declaredTypes_append (ds es : List Declared) :
    declaredTypes (ds ++ es) = declaredTypes ds ++ declaredTypes es :=
  List.filterMap_append

theorem declaredTypes_flatMap {α : Type} (f : α → List Declared) (as : List α) :
    declaredTypes (as.flatMap f) = as.flatMap fun a => declaredTypes (f a) := by
  induction as with
  | nil => rfl
  | cons a as ih => rw [List.flatMap_cons, declaredTypes_append, ih, List.flatMap_cons]

/-- The names of types are among those of all declarations. -/
theorem declaredTypes_sublist (ds : List Declared) :
    List.Sublist ((declaredTypes ds).map Prod.fst) (ds.map Declared.name) := by
  induction ds with
  | nil => exact .slnil
  | cons d ds ih =>
      cases htype : d.kind.isType with
      | true =>
          rw [declaredTypes_cons_of_type htype, List.map_cons, List.map_cons]
          exact ih.cons_cons d.name
      | false =>
          rw [declaredTypes_cons_of_not_type htype, List.map_cons]
          exact ih.cons d.name

/-- Declarations of other things than types. -/
theorem declaredTypes_eq_nil {ds : List Declared} (h : ∀ d ∈ ds, d.kind.isType = false) :
    declaredTypes ds = [] := by
  refine List.filterMap_eq_nil_iff.mpr fun d hd => if_neg ?_
  rw [h d hd]
  exact Bool.false_ne_true

/-! ### What the table knows -/

/-- No two types share a name. -/
theorem SymbolTable.nodup_declaredTypes {file : File} (h : (ofFile file).2 = []) :
    ((declaredTypes file.declared).map Prod.fst).Nodup :=
  (declaredTypes_sublist file.declared).nodup (reports_eq_nil_iff.mp h)

/-- What a table knows is declared with that kind. -/
theorem SymbolTable.exists_of_find? {file : File} {n : FullName} {x : Definition}
    (h : (ofFile file).1.find? n = some x) :
    ∃ d ∈ file.declared, d.name = n ∧ d.kind = x.kind := by
  rw [(tracks_ofFile file).1.find, Option.map_eq_some_iff] at h
  obtain ⟨d, hfirst, rfl⟩ := h
  exact ⟨d, List.mem_of_find?_eq_some hfirst, by simpa using List.find?_some hfirst, rfl⟩

namespace SymbolTable

variable {t : SymbolTable} {n m : FullName} {k : DefinitionKind}

/-! ### Resolving -/

theorem type?_eq_some (h : t.type? n = some (m, k)) :
    m = n ∧ k.isType = true ∧ t.kind? n = some k := by
  unfold type? at h
  split at h
  · rename_i k' hk
    split at h
    · rename_i htype
      obtain ⟨rfl, rfl⟩ := Prod.mk.inj (Option.some.inj h)
      exact ⟨rfl, htype, hk⟩
    · cases h
  · cases h

/-- A relative reference means a type of that name in one of the scopes. -/
theorem resolveIn_eq_some {first : String} {rest : List String} {scopes : List FullName}
    (h : t.resolveIn first rest scopes = some (m, k)) :
    k.isType = true ∧ t.kind? m = some k ∧
      ∃ scope ∈ scopes, m = (scope.child first).descend rest := by
  induction scopes with
  | nil => cases h
  | cons scope scopes ih =>
      have hlater : t.resolveIn first rest scopes = some (m, k) → k.isType = true ∧
          t.kind? m = some k ∧ ∃ s ∈ scope :: scopes, m = (s.child first).descend rest := by
        intro hrest
        obtain ⟨htype, hkind, s, hs, hm⟩ := ih hrest
        exact ⟨htype, hkind, s, List.mem_cons_of_mem scope hs, hm⟩
      simp only [resolveIn] at h
      split at h
      · rename_i k' hk
        split at h
        · rename_i htype
          obtain ⟨rfl, rfl⟩ := Prod.mk.inj (Option.some.inj h)
          exact ⟨htype, hk, scope, List.mem_cons_self, rfl⟩
        · exact hlater h
      · split at h
        · obtain ⟨rfl, htype, hkind⟩ := type?_eq_some h
          exact ⟨htype, hkind, scope, List.mem_cons_self, rfl⟩
        · exact hlater h
      · exact hlater h

end SymbolTable

theorem undotted_of_isLegal {n : DottedName} (h : n.isLegal = true) :
    ∀ word ∈ n.words, Undotted word := by
  intro word hword
  obtain ⟨part, hpart, rfl⟩ := List.mem_map.mp hword
  exact undotted_of_isWord (List.all_eq_true.mp h part hpart)

/-- What a reference means is known to the table under a name without dots. -/
theorem SymbolTable.resolve_eq_some {t : SymbolTable} {scope m : FullName} {k : DefinitionKind}
    {n : TypeName} (hs : scope.IsUndotted) (hn : n.isLegal = true)
    (h : t.resolve scope n.reference = some (m, k)) :
    k.isType = true ∧ ∃ x, t.find? m = some x ∧ x.kind = k := by
  have hwords := undotted_of_isLegal hn
  have hall : k.isType = true ∧ t.kind? m = some k ∧ m.IsUndotted := by
    unfold TypeName.reference at h
    split at h
    · obtain ⟨rfl, htype, hkind⟩ := type?_eq_some h
      exact ⟨htype, hkind, FullName.isUndotted_root.descend hwords⟩
    · obtain ⟨htype, hkind, s, hmem, rfl⟩ := resolveIn_eq_some h
      refine ⟨htype, hkind, FullName.IsUndotted.descend ?_ ?_⟩
      · exact (hs.enclosing hmem).child (hwords _ List.mem_cons_self)
      · exact fun word hword => hwords word (List.mem_cons_of_mem _ hword)
  obtain ⟨htype, hkind, hm⟩ := hall
  unfold SymbolTable.kind? at hkind
  rw [hm.withoutDot, Option.map_eq_some_iff] at hkind
  exact ⟨htype, hkind⟩

/-- **A reference that is resolved means a type that the file declares.** -/
theorem mem_declaredTypes_of_resolve {file : File} {scope m : FullName} {k : DefinitionKind}
    {n : TypeName} (hs : scope.IsUndotted) (hn : n.isLegal = true)
    (h : (SymbolTable.ofFile file).1.resolve scope n.reference = some (m, k)) :
    (m, k) ∈ declaredTypes file.declared := by
  obtain ⟨htype, x, hfind, rfl⟩ := SymbolTable.resolve_eq_some hs hn h
  exact mem_declaredTypes.mpr ⟨htype, SymbolTable.exists_of_find? hfind⟩

end ProtoSchema
