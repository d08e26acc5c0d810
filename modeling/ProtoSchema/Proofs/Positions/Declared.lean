/-
The places of declared names.

The table of names keeps each name with the place where it was declared first, and a name that
is declared again is reported with both places.  Every declaration is entered at the place of
its name, or, for a package, of all its names; so both places stand in the source.
-/
import ProtoSchema.Proofs.Positions.Checked

namespace ProtoSchema

variable {source : List Char}

/-! ### The walk -/

/-- What a statement declares. -/
def Statement.declared (scope : FullName) : Statement → List Declared
  | .package p => p.declared
  | .message m => m.declared scope
  | .enum e => e.declared scope
  | .extend e => e.declared scope
  | .service s => s.declared scope
  | .dialect .. | .dependency _ | .option _ => []

/-- The walk goes through the statements in the order in which the file keeps them. -/
theorem File.declared_eq_flatMap (file : File) : file.declared =
    file.statements.flatMap (Statement.declared (Package.scope file.package)) := by
  have himports : file.imports.flatMap (fun _ => ([] : List Declared)) = [] :=
    List.flatMap_eq_nil_iff.mpr fun _ _ => rfl
  have hoptions : file.options.flatMap (fun _ => ([] : List Declared)) = [] :=
    List.flatMap_eq_nil_iff.mpr fun _ _ => rfl
  simp [declared, statements, List.flatMap_map, Statement.declared, himports, hoptions]

theorem File.LiesIn.statement {file : File} (hf : file.LiesIn source) {st : Statement}
    (h : st ∈ file.statements) : Lies source ⟨0, Utf8.size source⟩ st := by
  simp only [File.statements, List.mem_append, List.mem_map, Option.mem_toList] at h
  rcases h with (((((⟨p, hp, rfl⟩ | ⟨i, hi, rfl⟩) | ⟨o, ho, rfl⟩) | ⟨m, hm, rfl⟩) |
    ⟨e, he, rfl⟩) | ⟨e, he, rfl⟩) | ⟨s, hs, rfl⟩
  · exact ⟨(hf.package p hp).within, (hf.package p hp).nested⟩
  · exact ⟨(hf.imports i hi).within, (hf.imports i hi).nested⟩
  · exact ⟨(hf.options o ho).within, (hf.options o ho).nested⟩
  · exact ⟨(hf.messages m hm).within, (hf.messages m hm).nested⟩
  · exact ⟨(hf.enums e he).within, (hf.enums e he).nested⟩
  · exact ⟨(hf.extendBlocks e he).within, (hf.extendBlocks e he).nested⟩
  · exact ⟨(hf.services s hs).within, (hf.services s hs).nested⟩

/-- The places of declared names stand within a stretch of the source. -/
def DeclaredIn (source : List Char) (outer : Span) (ds : List Declared) : Prop :=
  ∀ d ∈ ds, d.span.Within source outer

namespace DeclaredIn

variable {outer inner : Span} {ds : List Declared} (scope : FullName)

theorem mono (h : DeclaredIn source inner ds) (hinner : inner.Within source outer) :
    DeclaredIn source outer ds :=
  fun d hd => (h d hd).mono hinner.after hinner.before

theorem packagesFrom {s : Span} (hs : s.Within source outer) (ns : List String) :
    ∀ scope, DeclaredIn source outer (packagesFrom s scope ns) := by
  induction ns with
  | nil => exact fun _ d hd => (List.not_mem_nil hd).elim
  | cons n ns ih => exact fun scope => List.forall_mem_cons.mpr ⟨hs, ih _⟩

theorem package {p : Package} (hp : Lies source outer p) :
    DeclaredIn source (Node.span p) p.declared := packagesFrom hp.nested.within _ _

theorem field {f : Field} (hf : Lies source outer f) :
    DeclaredIn source (Node.span f) (f.declared scope) := by
  have hname : f.name.span.Within source (Node.span f) := hf.nested.name.within
  unfold Field.declared
  refine List.forall_mem_cons.mpr ⟨hname, ?_⟩
  split
  · exact List.forall_mem_singleton.mpr hname
  · exact fun d hd => (List.not_mem_nil hd).elim

theorem oneof {o : Oneof} (ho : Lies source outer o) :
    DeclaredIn source (Node.span o) (o.declared scope) := by
  refine List.forall_mem_cons.mpr ⟨ho.nested.name.within, fun d hd => ?_⟩
  obtain ⟨f, hf, hd⟩ := List.mem_flatMap.mp hd
  have hlies := ho.nested.fields f hf
  exact (field scope hlies).mono hlies.within d hd

theorem enum {e : Enum} (he : Lies source outer e) :
    DeclaredIn source (Node.span e) (e.declared scope) := by
  refine List.forall_mem_cons.mpr ⟨he.nested.name.within, fun d hd => ?_⟩
  obtain ⟨v, hv, rfl⟩ := List.mem_map.mp hd
  have hlies := he.nested.values v hv
  exact hlies.nested.name.within.mono hlies.within.after hlies.within.before

theorem extend {e : Extend} (he : Lies source outer e) :
    DeclaredIn source (Node.span e) (e.declared scope) := by
  intro d hd
  obtain ⟨f, hf, rfl⟩ := List.mem_map.mp hd
  have hlies := he.nested.fields f hf
  exact hlies.nested.name.within.mono hlies.within.after hlies.within.before

theorem service {s : Service} (hs : Lies source outer s) :
    DeclaredIn source (Node.span s) (s.declared scope) := by
  refine List.forall_mem_cons.mpr ⟨hs.nested.name.within, fun d hd => ?_⟩
  obtain ⟨m, hm, rfl⟩ := List.mem_map.mp hd
  have hlies := hs.nested.methods m hm
  exact hlies.nested.name.within.mono hlies.within.after hlies.within.before

mutual

theorem message (scope : FullName) : (m : Message) → m.Nested source →
    DeclaredIn source m.span (m.declared scope)
  | ⟨name, items, _, _, _, span⟩, h => by
    obtain ⟨hname, hitems, -⟩ := h
    exact List.forall_mem_cons.mpr ⟨hname.within,
      declaredAll _ span items ((MessageItem.allLie_iff span items).mp hitems)⟩

theorem declaredAll (scope : FullName) (place : Span) : (items : List MessageItem) →
    (∀ i ∈ items, Lies source place i) →
      DeclaredIn source place (MessageItem.declaredAll scope items)
  | [], _ => fun _ hd => (List.not_mem_nil hd).elim
  | i :: is, h =>
    List.forall_mem_append.mpr ⟨(item scope place i (h i (.head _))).mono (h i (.head _)).within,
      declaredAll scope place is fun j hj => h j (.tail _ hj)⟩

theorem item (scope : FullName) (place : Span) : (i : MessageItem) → Lies source place i →
    DeclaredIn source (Node.span i) (i.declared scope)
  | .field _, h => field scope h.of_field
  | .oneof _, h => oneof scope h.of_oneof
  | .message m, h => message scope m h.nested
  | .enum _, h => enum scope h.of_enum
  | .extend _, h => extend scope h.of_extend

end

theorem statement {st : Statement} (h : Lies source outer st) :
    DeclaredIn source (Node.span st) (st.declared scope) := by
  cases st with
  | package p =>
      have hp : Lies source outer p := ⟨h.within, h.nested⟩
      exact package hp
  | message m => exact message scope m h.nested
  | enum e =>
      have he : Lies source outer e := ⟨h.within, h.nested⟩
      exact enum scope he
  | extend e =>
      have he : Lies source outer e := ⟨h.within, h.nested⟩
      exact extend scope he
  | service s =>
      have hs : Lies source outer s := ⟨h.within, h.nested⟩
      exact service scope hs
  | _ => exact fun d hd => (List.not_mem_nil hd).elim

theorem file {file : File} (hf : file.LiesIn source) :
    DeclaredIn source ⟨0, Utf8.size source⟩ file.declared := by
  intro d hd
  rw [File.declared_eq_flatMap] at hd
  obtain ⟨st, hst, hd⟩ := List.mem_flatMap.mp hd
  have hlies := hf.statement hst
  exact (statement _ hlies).mono hlies.within d hd

end DeclaredIn

/-! ### The table -/

/-- A table whose definitions, and what was wrong with them, stand in the source. -/
def SymbolTable.EntriesFit (source : List Char) (t : SymbolTable) : Prop :=
  ∀ e ∈ t.entries, e.2.span.Fits source

theorem SymbolTable.fits_declare {t : SymbolTable} {d : Declared} (ht : t.EntriesFit source)
    (hd : d.span.Fits source) :
    (t.declare d).1.EntriesFit source ∧ ∀ x ∈ (t.declare d).2, x.Fits source := by
  unfold declare
  dsimp only
  split
  · exact ⟨List.forall_mem_cons.mpr ⟨hd, ht⟩, fun x hx => (List.not_mem_nil hx).elim⟩
  · rename_i earlier hearlier
    split
    · exact ⟨ht, fun x hx => (List.not_mem_nil hx).elim⟩
    · have hfirst : earlier.span.Fits source := ht _ (mem_of_lookup hearlier)
      exact ⟨ht, List.forall_mem_singleton.mpr (.two rfl hd hfirst hd)⟩

theorem SymbolTable.fits_declareAll {ds : List Declared} :
    ∀ {t : SymbolTable}, t.EntriesFit source → (∀ d ∈ ds, d.span.Fits source) →
      ∀ x ∈ (declareAll t ds).2, x.Fits source := by
  induction ds with
  | nil => exact fun _ _ x hx => (List.not_mem_nil hx).elim
  | cons d ds ih =>
      intro t ht hds
      obtain ⟨hd, hds⟩ := List.forall_mem_cons.mp hds
      obtain ⟨htable, hfound⟩ := fits_declare ht hd
      exact List.forall_mem_append.mpr ⟨hfound, ih htable hds⟩

/-- The names that a file declares twice stand in the source. -/
theorem SymbolTable.fits_ofFile {file : File} (hf : file.LiesIn source) :
    ∀ d ∈ (ofFile file).2, d.Fits source :=
  fits_declareAll (fun _ h => (List.not_mem_nil h).elim) fun d hd => (DeclaredIn.file hf d hd).fits

end ProtoSchema
