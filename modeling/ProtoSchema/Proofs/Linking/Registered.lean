/-
The table of a file is exact.

A file claims names by the things it declares, at any depth.  What claims which name is said
here by a relation on the tree: `File.Holds` finds the declarations with the scopes that they
stand in, and `File.Registers` lists the names that each of them claims.  How often a name is
claimed is said by a list, in which everything that the file holds has its claims once
(`File.registrations`).  The walk that fills the table makes these claims and no others.

The table keeps the first claim to every name, and every later claim is reported together with
that first one.  So the table and the reports can be read off the list of claims: the names of
the table are the distinct names of the list, and as many claims are reported as are left
over.  One exception is made while the table is filled, and it never takes effect.  A
package may be claimed again by a package; but a file has one package, whose claims come first
and are names of different lengths.
-/
import Mathlib.Data.List.Perm.Basic
import ProtoSchema.Proofs.Linking.Held
import ProtoSchema.Proofs.Linking.Names
import ProtoSchema.Symbol.Table

namespace ProtoSchema

/-! ### What claims a name -/

/-- The names that a file claims, each for a kind of thing and at a place. -/
inductive File.Registers (file : File) : FullName → DefinitionKind → Span → Prop
  | package {p : Package} {names : List String} : file.package = some p → names ≠ [] →
      names <+: p.name.words → Registers file (FullName.root.descend names) .package p.name.span
  | message {scope : FullName} {m : Message} : file.Holds scope (.message m) →
      Registers file (scope.child m.name.text) .message m.name.span
  | enum {scope : FullName} {e : Enum} : file.Holds scope (.enum e) →
      Registers file (scope.child e.name.text) .enum e.name.span
  /-- The values of an enum stand beside it. -/
  | enumValue {scope : FullName} {e : Enum} {v : EnumValue} : file.Holds scope (.enum e) →
      v ∈ e.values → Registers file (scope.child v.name.text) .enumValue v.name.span
  | field {scope : FullName} {f : Field} : file.HoldsField scope f →
      Registers file (scope.child f.name.text) .field f.name.span
  /-- The entries of a map are a message beside the field. -/
  | mapEntry {scope : FullName} {f : Field} : file.HoldsField scope f → f.kind.isMap = true →
      Registers file (scope.child (mapEntryName f.name.text)) .message f.name.span
  | oneof {scope : FullName} {o : Oneof} : file.Holds scope (.oneof o) →
      Registers file (scope.child o.name.text) .oneof o.name.span
  | extension {scope : FullName} {e : Extend} {f : Field} : file.Holds scope (.extend e) →
      f ∈ e.fields → Registers file (scope.child f.name.text) .extension f.name.span
  | service {s : Service} : s ∈ file.services →
      Registers file ((Package.scope file.package).child s.name.text) .service s.name.span
  | method {s : Service} {m : Method} : s ∈ file.services → m ∈ s.methods →
      Registers file (((Package.scope file.package).child s.name.text).child m.name.text) .method
        m.name.span

/-! ### How often a name is claimed -/

/-- A name that is claimed, with the kind and the place of what claims it. -/
abbrev Registration := FullName × DefinitionKind × Span

/-- The claim of a word to its name in a scope. -/
def Ident.registration (scope : FullName) (name : Ident) (kind : DefinitionKind) : Registration :=
  (scope.child name.text, kind, name.span)

/-- A package claims the first of its names, the first two of them, and so on. -/
def Package.registrations (p : Package) : List Registration :=
  (List.range p.name.words.length).map fun i =>
    (FullName.root.descend (p.name.words.take (i + 1)), .package, p.name.span)

def Field.registrations (scope : FullName) (f : Field) : List Registration :=
  f.name.registration scope .field ::
    if f.kind.isMap then [(scope.child (mapEntryName f.name.text), .message, f.name.span)] else []

/-- What an item claims, apart from the items within it. -/
def MessageItem.registrations (scope : FullName) : MessageItem → List Registration
  | .message m => [m.name.registration scope .message]
  | .field f => f.registrations scope
  | .oneof o => o.name.registration scope .oneof :: o.fields.flatMap (Field.registrations scope)
  | .enum e =>
    e.name.registration scope .enum :: e.values.map (·.name.registration scope .enumValue)
  | .extend e => e.fields.map (·.name.registration scope .extension)

def Service.registrations (scope : FullName) (s : Service) : List Registration :=
  s.name.registration scope .service ::
    s.methods.map (·.name.registration (scope.child s.name.text) .method)

/-- What a file claims: its package, each item that it holds, and its services. -/
def File.registrations (file : File) : List Registration :=
  file.package.toList.flatMap Package.registrations ++
    (file.heldItems.flatMap (fun p => p.2.registrations p.1) ++
      file.services.flatMap (Service.registrations (Package.scope file.package)))

/-- What a declaration claims. -/
def Declared.registration (d : Declared) : Registration := (d.name, d.kind, d.span)

/-- A claim of the walk that the file makes, other than for a package. -/
structure File.Claims (file : File) (d : Declared) : Prop where
  registers : file.Registers d.name d.kind d.span
  notPackage : d.kind ≠ .package

/-! ### The walk claims what the file registers -/

theorem mem_packagesFrom {span : Span} {scope : FullName} {names : List String} {d : Declared} :
    d ∈ packagesFrom span scope names ↔ ∃ front : List String, front ≠ [] ∧ front <+: names ∧
      d = ⟨scope.descend front, .package, span, none⟩ := by
  induction names generalizing scope with
  | nil =>
      refine ⟨fun h => absurd h List.not_mem_nil, ?_⟩
      rintro ⟨front, hne, hfront, -⟩
      exact absurd (List.prefix_nil.mp hfront) hne
  | cons n ns ih =>
      rw [packagesFrom, List.mem_cons, ih]
      constructor
      · rintro (heq | ⟨front, -, hfront, heq⟩)
        · exact ⟨[n], List.cons_ne_nil _ _, ⟨ns, rfl⟩, heq⟩
        · exact ⟨n :: front, List.cons_ne_nil _ _, List.cons_prefix_cons.mpr ⟨rfl, hfront⟩, heq⟩
      · rintro ⟨front, hne, hfront, heq⟩
        obtain hnil | ⟨rest, rfl, hrest⟩ := List.prefix_cons_iff.mp hfront
        · exact absurd hnil hne
        · cases rest with
          | nil => exact Or.inl heq
          | cons r rs => exact Or.inr ⟨r :: rs, List.cons_ne_nil _ _, hrest, heq⟩

/-- What an item declares, apart from what the items within it declare. -/
def MessageItem.ownDeclared (scope : FullName) : MessageItem → List Declared
  | .message m => [.within scope m.name .message]
  | .field f => f.declared scope
  | .oneof o => o.declared scope
  | .enum e => e.declared scope
  | .extend e => e.declared scope

theorem Message.declared_eq (scope : FullName) (m : Message) :
    m.declared scope = .within scope m.name .message ::
      MessageItem.declaredAll (scope.child m.name.text) m.items := by
  cases m
  rfl

theorem MessageItem.declaredAll_eq (scope : FullName) (items : List MessageItem) :
    declaredAll scope items = items.flatMap (declared scope) := by
  induction items with
  | nil => rfl
  | cons i is ih => rw [declaredAll, ih, List.flatMap_cons]

/-- What the items of a message declare, apart from the items within those. -/
def Message.ownDeclared (p : FullName × Message) : List Declared :=
  p.2.items.flatMap (MessageItem.ownDeclared (p.1.child p.2.name.text))

/-! The walk comes by everything that it comes by once, if not in the order of the messages. -/

mutual

theorem Message.declared_perm (scope : FullName) : (m : Message) → (m.declared scope).Perm
    (.within scope m.name .message :: (m.walk scope).flatMap Message.ownDeclared)
  | ⟨name, items, options, reserved, extensions, span⟩ => by
      have hitems := MessageItem.declaredAll_perm (scope.child name.text) items
      rw [Message.declared_eq, Message.walk_eq, List.flatMap_cons]
      exact hitems.cons _

theorem MessageItem.declaredAll_perm (scope : FullName) : (items : List MessageItem) →
    (MessageItem.declaredAll scope items).Perm (items.flatMap (MessageItem.ownDeclared scope) ++
      (MessageItem.walkAll scope items).flatMap Message.ownDeclared)
  | [] => .refl _
  | i :: is => by
      have hi := MessageItem.declared_perm scope i
      have his := MessageItem.declaredAll_perm scope is
      rw [List.perm_iff_count] at hi his ⊢
      intro d
      have hd := hi d
      have hds := his d
      simp only [MessageItem.declaredAll, MessageItem.walkAll, List.flatMap_cons,
        List.flatMap_append, List.count_append] at hd hds ⊢
      omega

theorem MessageItem.declared_perm (scope : FullName) : (i : MessageItem) →
    (i.declared scope).Perm
      (i.ownDeclared scope ++ (i.walk scope).flatMap Message.ownDeclared)
  | .message m => Message.declared_perm scope m
  | .field f => .of_eq (List.append_nil (f.declared scope)).symm
  | .oneof o => .of_eq (List.append_nil (o.declared scope)).symm
  | .enum e => .of_eq (List.append_nil (e.declared scope)).symm
  | .extend e => .of_eq (List.append_nil (e.declared scope)).symm

end

namespace File

variable {file : File} {scope : FullName} {d : Declared}

theorem HoldsField.claims {f : Field} (h : file.HoldsField scope f) (hd : d ∈ f.declared scope) :
    file.Claims d := by
  rcases List.mem_cons.mp hd with rfl | hentry
  · exact ⟨.field h, nofun⟩
  · split at hentry
    · rename_i hmap
      obtain rfl := List.mem_singleton.mp hentry
      exact ⟨.mapEntry h hmap, nofun⟩
    · cases hentry

theorem Holds.claims_oneof {o : Oneof} (h : file.Holds scope (.oneof o))
    (hd : d ∈ o.declared scope) : file.Claims d := by
  rcases List.mem_cons.mp hd with rfl | hfield
  · exact ⟨.oneof h, nofun⟩
  · obtain ⟨f, hf, hd⟩ := List.mem_flatMap.mp hfield
    exact HoldsField.claims (.oneof h hf) hd

theorem Holds.claims_enum {e : Enum} (h : file.Holds scope (.enum e))
    (hd : d ∈ e.declared scope) : file.Claims d := by
  rcases List.mem_cons.mp hd with rfl | hvalue
  · exact ⟨.enum h, nofun⟩
  · obtain ⟨v, hv, rfl⟩ := List.mem_map.mp hvalue
    exact ⟨.enumValue h hv, nofun⟩

theorem Holds.claims_extend {e : Extend} (h : file.Holds scope (.extend e))
    (hd : d ∈ e.declared scope) : file.Claims d := by
  obtain ⟨f, hf, rfl⟩ := List.mem_map.mp hd
  exact ⟨.extension h hf, nofun⟩

/-- An item claims what it declares apart from the items within it. -/
theorem Holds.claims_own : {i : MessageItem} → file.Holds scope i → d ∈ i.ownDeclared scope →
    file.Claims d
  | .field _ => fun h hd => HoldsField.claims (.field h) hd
  | .oneof _ => fun h hd => h.claims_oneof hd
  | .message m => fun h hd => by
      obtain rfl := List.mem_singleton.mp hd
      exact ⟨.message h, nofun⟩
  | .enum _ => fun h hd => h.claims_enum hd
  | .extend _ => fun h hd => h.claims_extend hd

/-- What an item declares is declared by the item itself, or by one that is held within it. -/
theorem Holds.exists_own {i : MessageItem} (h : file.Holds scope i) (hd : d ∈ i.declared scope) :
    ∃ inner j, file.Holds inner j ∧ d ∈ j.ownDeclared inner := by
  rcases List.mem_append.mp ((i.declared_perm scope).mem_iff.mp hd) with hd | hd
  · exact ⟨scope, i, h, hd⟩
  · obtain ⟨p, hp, hd⟩ := List.mem_flatMap.mp hd
    obtain ⟨j, hj, hd⟩ := List.mem_flatMap.mp hd
    exact ⟨_, j, .within (holds_of_mem_walkItem i h p hp) hj, hd⟩

theorem claims_service {s : Service} (hs : s ∈ file.services)
    (hd : d ∈ s.declared (Package.scope file.package)) : file.Claims d := by
  rcases List.mem_cons.mp hd with rfl | hmethod
  · exact ⟨.service hs, nofun⟩
  · obtain ⟨m, hm, rfl⟩ := List.mem_map.mp hmethod
    exact ⟨.method hs hm, nofun⟩

/-- The claims of a file to its packages. -/
def packageClaims (file : File) : List Declared := file.package.toList.flatMap Package.declared

/-- Behind the packages, the walk comes by what the file holds and by its services. -/
theorem exists_declared_eq (file : File) : ∃ ds, file.declared = file.packageClaims ++ ds ∧
    ∀ d ∈ ds, (∃ scope i, file.Holds scope i ∧ d ∈ i.ownDeclared scope) ∨
      ∃ s ∈ file.services, d ∈ s.declared (Package.scope file.package) := by
  refine ⟨_, by simp only [File.declared, packageClaims, List.append_assoc]; rfl, ?_⟩
  intro d hd
  simp only [List.mem_append, List.mem_flatMap] at hd
  rcases hd with ⟨m, hm, hd⟩ | ⟨e, he, hd⟩ | ⟨e, he, hd⟩ | ⟨s, hs, hd⟩
  · exact .inl (Holds.exists_own (.message hm) hd)
  · exact .inl ⟨_, _, .enum he, hd⟩
  · exact .inl ⟨_, _, .extend he, hd⟩
  · exact .inr ⟨s, hs, hd⟩

/-- The walk claims packages first, and nothing after them is a claim to a package. -/
theorem declared_eq (file : File) :
    ∃ ds, file.declared = file.packageClaims ++ ds ∧ ∀ d ∈ ds, file.Claims d := by
  obtain ⟨ds, hds, hsource⟩ := file.exists_declared_eq
  refine ⟨ds, hds, fun d hd => ?_⟩
  rcases hsource d hd with ⟨_, _, hi, hd⟩ | ⟨s, hs, hd⟩
  · exact hi.claims_own hd
  · exact claims_service hs hd

/-- The walk comes by all that the file holds, by each once. -/
theorem declared_perm (file : File) : file.declared.Perm (file.packageClaims ++
    (file.heldItems.flatMap (fun p => p.2.ownDeclared p.1) ++
      file.services.flatMap (Service.declared (Package.scope file.package)))) := by
  have hmessages : (file.messages.flatMap (Message.declared (Package.scope file.package))).Perm
      (file.messages.flatMap (fun m => [.within (Package.scope file.package) m.name .message]) ++
        file.heldMessages.flatMap Message.ownDeclared) := by
    refine (List.Perm.flatMap_left _ fun m _ => m.declared_perm _).trans ?_
    rw [heldMessages, List.flatMap_assoc]
    exact (List.flatMap_append_perm file.messages
      (fun m => [Declared.within (Package.scope file.package) m.name .message]) _).symm
  have hitems : file.heldItems.flatMap (fun p => p.2.ownDeclared p.1) =
      file.messages.flatMap (fun m => [.within (Package.scope file.package) m.name .message]) ++
        (file.enums.flatMap (Enum.declared (Package.scope file.package)) ++
          (file.extendBlocks.flatMap (Extend.declared (Package.scope file.package)) ++
            file.heldMessages.flatMap Message.ownDeclared)) := by
    simp only [heldItems, List.flatMap_append, List.flatMap_map, List.flatMap_assoc]
    rfl
  rw [hitems]
  rw [List.perm_iff_count] at hmessages ⊢
  intro d
  have hd := hmessages d
  simp only [declared, packageClaims, List.count_append] at hd ⊢
  omega

/-- So it comes by what an item of the file declares. -/
theorem Holds.mem_declared {i : MessageItem} (h : file.Holds scope i)
    (hd : d ∈ i.ownDeclared scope) : d ∈ file.declared := by
  have hitem : (scope, i) ∈ file.heldItems := mem_heldItems.mpr h
  exact file.declared_perm.mem_iff.mpr
    (List.mem_append_right _ (List.mem_append_left _ (List.mem_flatMap.mpr ⟨_, hitem, hd⟩)))

/-! ### The claims of the walk -/

theorem registration_packagesFrom (span : Span) (scope : FullName) (names : List String) :
    (packagesFrom span scope names).map Declared.registration =
      (List.range names.length).map fun i =>
        (scope.descend (names.take (i + 1)), .package, span) := by
  induction names generalizing scope with
  | nil => rfl
  | cons n ns ih =>
      rw [packagesFrom, List.map_cons, ih, List.length_cons, List.range_succ_eq_map,
        List.map_cons, List.map_map]
      rfl

theorem registration_package (p : Package) :
    p.declared.map Declared.registration = p.registrations := registration_packagesFrom _ _ _

theorem registration_field (scope : FullName) (f : Field) :
    (f.declared scope).map Declared.registration = f.registrations scope := by
  unfold Field.declared Field.registrations
  split <;> rfl

theorem registration_item (scope : FullName) (i : MessageItem) :
    (i.ownDeclared scope).map Declared.registration = i.registrations scope := by
  cases i with
  | message m => rfl
  | field f => exact registration_field scope f
  | oneof o =>
      rw [MessageItem.ownDeclared, Oneof.declared, List.map_cons, List.map_flatMap]
      simp only [registration_field]
      rfl
  | enum e =>
      rw [MessageItem.ownDeclared, Enum.declared, List.map_cons, List.map_map]
      rfl
  | extend e =>
      rw [MessageItem.ownDeclared, Extend.declared, List.map_map]
      rfl

theorem registration_service (scope : FullName) (s : Service) :
    (s.declared scope).map Declared.registration = s.registrations scope := by
  rw [Service.declared, List.map_cons, List.map_map]
  rfl

/-- The walk makes the claims of a file, each as often as the file does. -/
theorem registrations_perm (file : File) :
    (file.declared.map Declared.registration).Perm file.registrations := by
  refine (file.declared_perm.map _).trans (List.Perm.of_eq ?_)
  simp only [packageClaims, registrations, List.map_append, List.map_flatMap,
    registration_package, registration_item, registration_service]

/-! ### The claims of a file are what it registers -/

theorem Holds.mem_registrations {i : MessageItem} (h : file.Holds scope i) {r : Registration}
    (hr : r ∈ i.registrations scope) : r ∈ file.registrations := by
  have hitem : (scope, i) ∈ file.heldItems := mem_heldItems.mpr h
  exact List.mem_append_right _ (List.mem_append_left _ (List.mem_flatMap.mpr ⟨_, hitem, hr⟩))

theorem HoldsField.mem_registrations {f : Field} (h : file.HoldsField scope f) {r : Registration}
    (hr : r ∈ f.registrations scope) : r ∈ file.registrations := by
  cases h with
  | field h => exact h.mem_registrations hr
  | oneof h hf =>
      exact h.mem_registrations (List.mem_cons_of_mem _ (List.mem_flatMap.mpr ⟨f, hf, hr⟩))

theorem mem_registrations_of_service {s : Service} (hs : s ∈ file.services) {r : Registration}
    (hr : r ∈ s.registrations (Package.scope file.package)) : r ∈ file.registrations :=
  List.mem_append_right _ (List.mem_append_right _ (List.mem_flatMap.mpr ⟨s, hs, hr⟩))

theorem Registers.mem_registrations {n : FullName} {k : DefinitionKind} {s : Span}
    (h : file.Registers n k s) : (n, k, s) ∈ file.registrations := by
  cases h with
  | @package p names hp hne hnames =>
      refine List.mem_append_left _ (List.mem_flatMap.mpr ⟨p, Option.mem_toList.mpr hp, ?_⟩)
      rw [← registration_package]
      exact List.mem_map.mpr ⟨_, mem_packagesFrom.mpr ⟨names, hne, hnames, rfl⟩, rfl⟩
  | message h => exact h.mem_registrations (List.mem_singleton_self _)
  | enum h => exact h.mem_registrations List.mem_cons_self
  | enumValue h hv =>
      exact h.mem_registrations (List.mem_cons_of_mem _ (List.mem_map.mpr ⟨_, hv, rfl⟩))
  | field h => exact h.mem_registrations List.mem_cons_self
  | mapEntry h hmap =>
      refine h.mem_registrations (List.mem_cons_of_mem _ ?_)
      rw [if_pos hmap]
      exact List.mem_singleton_self _
  | oneof h => exact h.mem_registrations List.mem_cons_self
  | extension h hf => exact h.mem_registrations (List.mem_map.mpr ⟨_, hf, rfl⟩)
  | service hs => exact mem_registrations_of_service hs List.mem_cons_self
  | method hs hm =>
      exact mem_registrations_of_service hs
        (List.mem_cons_of_mem _ (List.mem_map.mpr ⟨_, hm, rfl⟩))

theorem registers_of_mem {n : FullName} {k : DefinitionKind} {s : Span}
    (h : (n, k, s) ∈ file.registrations) : file.Registers n k s := by
  rcases List.mem_append.mp h with h | h
  · obtain ⟨p, hp, h⟩ := List.mem_flatMap.mp h
    rw [← registration_package] at h
    obtain ⟨d, hd, heq⟩ := List.mem_map.mp h
    obtain ⟨names, hne, hnames, rfl⟩ := mem_packagesFrom.mp hd
    cases heq
    exact .package (Option.mem_toList.mp hp) hne hnames
  rcases List.mem_append.mp h with h | h
  · obtain ⟨⟨scope, i⟩, hi, h⟩ := List.mem_flatMap.mp h
    rw [← registration_item] at h
    obtain ⟨d, hd, heq⟩ := List.mem_map.mp h
    cases heq
    exact ((mem_heldItems.mp hi).claims_own hd).registers
  · obtain ⟨service, hs, h⟩ := List.mem_flatMap.mp h
    rw [← registration_service] at h
    obtain ⟨d, hd, heq⟩ := List.mem_map.mp h
    cases heq
    exact (claims_service hs hd).registers

theorem mem_registrations {n : FullName} {k : DefinitionKind} {s : Span} :
    (n, k, s) ∈ file.registrations ↔ file.Registers n k s :=
  ⟨registers_of_mem, Registers.mem_registrations⟩

/-- **The walk over a file claims exactly the names that its declarations register.** -/
theorem registers_iff {n : FullName} {k : DefinitionKind} {s : Span} :
    file.Registers n k s ↔ ∃ d ∈ file.declared, d.name = n ∧ d.kind = k ∧ d.span = s := by
  rw [← mem_registrations, ← file.registrations_perm.mem_iff, List.mem_map]
  constructor
  · rintro ⟨d, hd, heq⟩
    cases heq
    exact ⟨d, hd, rfl, rfl, rfl⟩
  · rintro ⟨d, hd, rfl, rfl, rfl⟩
    exact ⟨d, hd, rfl⟩

end File

/-! ### First claims -/

/-- What a declaration makes known of its name. -/
def Declared.definition (d : Declared) : Definition := ⟨d.kind, d.span⟩

/-- The first of some declarations that claims a name. -/
def firstClaim (ds : List Declared) (n : FullName) : Option Declared :=
  ds.find? fun d => d.name = n

theorem firstClaim_append (ds es : List Declared) (n : FullName) :
    firstClaim (ds ++ es) n = (firstClaim ds n).or (firstClaim es n) :=
  List.find?_append

theorem firstClaim_eq_none_iff {ds : List Declared} {n : FullName} :
    firstClaim ds n = none ↔ n ∉ ds.map Declared.name := by
  simp [firstClaim, List.find?_eq_none]

/-- What is reported of a claim that comes after others. -/
def repetition (known : List Declared) (d : Declared) : List Diagnostic :=
  ((firstClaim known d.name).map fun first =>
    .duplicateName d.name.text first.span d.span).toList

/-- What is reported of some claims that come after others. -/
def repetitions : (known : List Declared) → List Declared → List Diagnostic
  | _, [] => []
  | known, d :: ds => repetition known d ++ repetitions (known ++ [d]) ds

/-- How many names some declarations claim. -/
def countNames (ds : List Declared) : Nat := (ds.map Declared.name).eraseDups.length

theorem eraseDups_snoc (ns : List FullName) (n : FullName) :
    (ns ++ [n]).eraseDups = if n ∈ ns then ns.eraseDups else ns.eraseDups ++ [n] := by
  rw [List.eraseDups_append]
  by_cases hn : n ∈ ns
  · simp [List.removeAll, hn]
  · simp [List.removeAll, hn, List.eraseDups_cons]

/-- A claim is reported, or it claims one more name. -/
theorem length_repetition (known : List Declared) (d : Declared) :
    (repetition known d).length + countNames (known ++ [d]) = countNames known + 1 := by
  unfold countNames repetition
  rw [List.map_append, List.map_singleton, eraseDups_snoc]
  cases hfirst : firstClaim known d.name with
  | none =>
      rw [if_neg (firstClaim_eq_none_iff.mp hfirst)]
      simp
  | some first =>
      have hmem : d.name ∈ known.map Declared.name := by
        refine Classical.byContradiction fun hn => ?_
        rw [firstClaim_eq_none_iff.mpr hn] at hfirst
        cases hfirst
      rw [if_pos hmem]
      simp [Nat.add_comm]

theorem length_repetitions (known ds : List Declared) :
    (repetitions known ds).length + countNames (known ++ ds) = countNames known + ds.length := by
  induction ds generalizing known with
  | nil => simp [repetitions]
  | cons d ds ih =>
      have hd := length_repetition known d
      have hds := ih (known ++ [d])
      rw [List.append_assoc, List.singleton_append] at hds
      rw [repetitions, List.length_append, List.length_cons]
      omega

/-- What is reported is a claim to a name that was claimed before. -/
theorem mem_repetitions {known ds : List Declared} {x : Diagnostic} :
    x ∈ repetitions known ds ↔ ∃ before d after first, ds = before ++ d :: after ∧
      firstClaim (known ++ before) d.name = some first ∧
      x = .duplicateName d.name.text first.span d.span := by
  induction ds generalizing known with
  | nil => simp [repetitions]
  | cons e es ih =>
      rw [repetitions, List.mem_append, ih]
      constructor
      · rintro (hx | ⟨before, d, after, first, rfl, hfirst, rfl⟩)
        · simp only [repetition, Option.mem_toList, Option.map_eq_some_iff] at hx
          obtain ⟨first, hfirst, rfl⟩ := hx
          exact ⟨[], e, es, first, rfl, by rwa [List.append_nil], rfl⟩
        · refine ⟨e :: before, d, after, first, rfl, ?_, rfl⟩
          rwa [List.append_assoc, List.singleton_append] at hfirst
      · rintro ⟨before, d, after, first, hes, hfirst, rfl⟩
        cases before with
        | nil =>
            obtain ⟨rfl, rfl⟩ := List.cons.inj hes
            rw [List.append_nil] at hfirst
            exact Or.inl (by simp [repetition, hfirst])
        | cons b bs =>
            obtain ⟨rfl, rfl⟩ := List.cons.inj hes
            refine Or.inr ⟨bs, d, after, first, rfl, ?_, rfl⟩
            rwa [List.append_assoc, List.singleton_append]

/-- Nothing is reported of claims to different names, and of no others. -/
theorem repetitions_eq_nil_iff {known ds : List Declared}
    (hknown : (known.map Declared.name).Nodup) :
    repetitions known ds = [] ↔ ((known ++ ds).map Declared.name).Nodup := by
  induction ds generalizing known with
  | nil => simpa [repetitions] using hknown
  | cons d ds ih =>
      rw [repetitions, List.append_eq_nil_iff]
      by_cases hd : d.name ∈ known.map Declared.name
      · refine ⟨fun h => ?_, fun h => ?_⟩
        · cases hfirst : firstClaim known d.name with
          | none => exact absurd hd (firstClaim_eq_none_iff.mp hfirst)
          | some first => simp [repetition, hfirst] at h
        · rw [List.map_append, List.nodup_append] at h
          exact absurd rfl (h.2.2 d.name hd d.name (by simp))
      · have hsnoc : ((known ++ [d]).map Declared.name).Nodup := by
          rw [List.map_append, List.nodup_append]
          refine ⟨hknown, by simp, fun n hn m hm heq => ?_⟩
          rw [List.mem_singleton.mp hm] at heq
          exact hd (heq ▸ hn)
        have hnew : repetition known d = [] := by
          simp [repetition, firstClaim_eq_none_iff.mpr hd]
        rw [ih hsnoc, List.append_assoc, List.singleton_append, hnew]
        simp

/-! ### The table keeps first claims -/

/-- A claim to a package is not a claim to a name that was claimed before. -/
def Declared.Opens (e d : Declared) : Prop := d.kind = .package → e.name ≠ d.name

namespace SymbolTable

/-- The table knows the first claims to all names that were claimed. -/
structure Tracks (t : SymbolTable) (known : List Declared) : Prop where
  /-- Its names are the claimed ones, each once; later ones stand in front. -/
  names : t.entries.map Prod.fst = (known.map Declared.name).eraseDups.reverse
  nodup : (t.entries.map Prod.fst).Nodup
  find : ∀ n, t.find? n = (firstClaim known n).map Declared.definition

variable {t : SymbolTable} {known ds : List Declared} {d : Declared}

theorem tracks_empty : empty.Tracks [] where
  names := rfl
  nodup := List.nodup_nil
  find _ := rfl

/-- A name that is known already keeps its first claim. -/
theorem Tracks.again (ht : t.Tracks known) {first : Declared}
    (hfirst : firstClaim known d.name = some first) : t.Tracks (known ++ [d]) where
  names := by
    have hmem : d.name ∈ known.map Declared.name := by
      refine Classical.byContradiction fun hn => ?_
      rw [firstClaim_eq_none_iff.mpr hn] at hfirst
      cases hfirst
    rw [ht.names, List.map_append, List.map_singleton, eraseDups_snoc, if_pos hmem]
  nodup := ht.nodup
  find n := by
    rw [ht.find, firstClaim_append]
    by_cases hn : d.name = n
    · rw [← hn, hfirst]
      rfl
    · have hnone : firstClaim [d] n = none := by simp [firstClaim, hn]
      rw [hnone, Option.or_none]

/-- A name that is not known yet is entered. -/
theorem Tracks.enter (ht : t.Tracks known) (hfirst : firstClaim known d.name = none)
    (values : List FullName) :
    (SymbolTable.mk ((d.name, d.definition) :: t.entries) values).Tracks (known ++ [d]) where
  names := by
    rw [List.map_append, List.map_singleton, eraseDups_snoc,
      if_neg (firstClaim_eq_none_iff.mp hfirst), List.reverse_append, ← ht.names]
    rfl
  nodup := by
    rw [List.map_cons, List.nodup_cons, ht.names, List.mem_reverse, List.mem_eraseDups, ← ht.names]
    exact ⟨firstClaim_eq_none_iff.mp hfirst, ht.nodup⟩
  find n := by
    rw [firstClaim_append, find?, List.lookup_cons]
    by_cases hn : n = d.name
    · rw [hn, hfirst]
      simp [firstClaim]
    · have hnone : firstClaim [d] n = none := by simp [firstClaim, Ne.symm hn]
      rw [beq_eq_false_iff_ne.mpr hn, hnone, Option.or_none, ← ht.find n]
      rfl

/-- One more claim is the first to its name, or it is reported. -/
theorem Tracks.declare (ht : t.Tracks known) (hopens : ∀ e ∈ known, e.Opens d) :
    (t.declare d).1.Tracks (known ++ [d]) ∧ (t.declare d).2 = repetition known d := by
  have hfind := ht.find d.name
  cases hfirst : firstClaim known d.name with
  | none =>
      have hnew : ({ t with enumValues := d.enumValue.toList ++ t.enumValues }
          : SymbolTable).find? d.name = none := by
        rw [hfirst] at hfind
        exact hfind
      simp only [SymbolTable.declare, hnew, repetition, hfirst]
      exact ⟨ht.enter hfirst _, rfl⟩
  | some first =>
      have hknown : ({ t with enumValues := d.enumValue.toList ++ t.enumValues }
          : SymbolTable).find? d.name = some first.definition := by
        rw [hfirst] at hfind
        exact hfind
      -- Packages are the only claims that are not reported, and each of them is new.
      have hreported : ¬(d.kind = .package ∧ first.definition.kind = .package) := by
        intro hpackage
        have hname : first.name = d.name := by simpa using List.find?_some hfirst
        exact hopens first (List.mem_of_find?_eq_some hfirst) hpackage.1 hname
      simp only [SymbolTable.declare, hknown, if_neg hreported, repetition, hfirst]
      have hagain := ht.again hfirst
      exact ⟨⟨hagain.names, hagain.nodup, hagain.find⟩, rfl⟩

theorem declareAll_cons (t : SymbolTable) (d : Declared) (ds : List Declared) :
    t.declareAll (d :: ds) = (((t.declare d).1.declareAll ds).1,
      (t.declare d).2 ++ ((t.declare d).1.declareAll ds).2) := rfl

theorem enumValues_declare (t : SymbolTable) (d : Declared) :
    (t.declare d).1.enumValues = d.enumValue.toList ++ t.enumValues := by
  unfold declare
  dsimp only
  split
  · rfl
  · split <;> rfl

/-- A table knows the enum values that were declared. -/
theorem mem_enumValues_declareAll (t : SymbolTable) (ds : List Declared) (n : FullName) :
    n ∈ (t.declareAll ds).1.enumValues ↔
      n ∈ t.enumValues ∨ ∃ d ∈ ds, d.enumValue = some n := by
  induction ds generalizing t with
  | nil => simp [declareAll]
  | cons d ds ih =>
      simp only [List.mem_cons, exists_eq_or_imp]
      rw [declareAll_cons, ih, enumValues_declare, List.mem_append, Option.mem_toList, or_assoc,
        or_left_comm]

/-- Claims that follow others are tracked, and the repetitions among them reported. -/
theorem Tracks.declareAll (ht : t.Tracks known) (hopens : (known ++ ds).Pairwise Declared.Opens) :
    (t.declareAll ds).1.Tracks (known ++ ds) ∧ (t.declareAll ds).2 = repetitions known ds := by
  induction ds generalizing t known with
  | nil => exact ⟨by rwa [List.append_nil], rfl⟩
  | cons d ds ih =>
      have hd : ∀ e ∈ known, e.Opens d :=
        fun e he => (List.pairwise_append.mp hopens).2.2 e he d List.mem_cons_self
      obtain ⟨hone, hreport⟩ := ht.declare hd
      rw [← List.singleton_append, ← List.append_assoc] at hopens
      obtain ⟨hall, hreports⟩ := ih hone hopens
      rw [declareAll_cons]
      refine ⟨?_, ?_⟩
      · rwa [List.append_assoc, List.singleton_append] at hall
      · rw [hreport, hreports, repetitions]

end SymbolTable

/-! ### The claims of a file -/

/-- Of the packages around each other, each has a longer name than those around it. -/
theorem pairwise_packagesFrom (span : Span) (scope : FullName) (names : List String) :
    (packagesFrom span scope names).Pairwise Declared.Opens := by
  induction names generalizing scope with
  | nil => exact List.Pairwise.nil
  | cons n ns ih =>
      rw [packagesFrom, List.pairwise_cons]
      refine ⟨fun d hd _ heq => ?_, ih (scope.child n)⟩
      obtain ⟨front, hne, -, rfl⟩ := mem_packagesFrom.mp hd
      have hlength := congrArg (fun name : FullName => name.chain.length) heq
      simp only [FullName.chain_descend, List.length_append, List.length_reverse] at hlength
      have hpos := List.length_pos_iff.mpr hne
      omega

theorem File.pairwise_declared (file : File) : file.declared.Pairwise Declared.Opens := by
  obtain ⟨ds, hds, hclaims⟩ := file.declared_eq
  rw [hds, List.pairwise_append]
  refine ⟨?_, ?_, fun e _ d hd hpackage => absurd hpackage (hclaims d hd).notPackage⟩
  · unfold File.packageClaims
    cases file.package with
    | none => exact List.Pairwise.nil
    | some p =>
        rw [Option.toList_some, List.flatMap_cons, List.flatMap_nil, List.append_nil]
        exact pairwise_packagesFrom _ _ _
  · refine List.pairwise_of_forall_mem_list fun e _ d hd hpackage => ?_
    exact absurd hpackage (hclaims d hd).notPackage

theorem SymbolTable.tracks_ofFile (file : File) :
    (ofFile file).1.Tracks file.declared ∧ (ofFile file).2 = repetitions [] file.declared := by
  have hopens : ([] ++ file.declared).Pairwise Declared.Opens := file.pairwise_declared
  exact tracks_empty.declareAll hopens

/-- Nothing is reported exactly if no name is declared twice. -/
theorem SymbolTable.reports_eq_nil_iff {file : File} :
    (ofFile file).2 = [] ↔ (file.declared.map Declared.name).Nodup := by
  have hnone : (([] : List Declared).map Declared.name).Nodup := List.nodup_nil
  rw [(tracks_ofFile file).2, repetitions_eq_nil_iff hnone, List.nil_append]

/--
**The table of a file is exact.**

It has the names that the file registers and no others, each once, with the kind and the place
of its first claim.  The claims are those of what the file declares, each as often as it is made
there.  One diagnostic is made for every claim to a name that was claimed before;
it tells that name and the place of its first claim.  As many are made as there are more claims
than names, so there is none exactly if all claimed names are different.
-/
theorem SymbolTable.ofFile_exact (file : File) :
    (∀ n, ((ofFile file).1.find? n).isSome = true ↔ ∃ k s, file.Registers n k s) ∧
    ((ofFile file).1.entries.map Prod.fst).Nodup ∧
    (∀ n k s, file.Registers n k s ↔
      ∃ d ∈ file.declared, d.name = n ∧ d.kind = k ∧ d.span = s) ∧
    (file.declared.map Declared.registration).Perm file.registrations ∧
    (∀ n, (ofFile file).1.find? n = (firstClaim file.declared n).map Declared.definition) ∧
    (ofFile file).2.length + countNames file.declared = file.declared.length ∧
    (∀ x, x ∈ (ofFile file).2 ↔ ∃ before d after first, file.declared = before ++ d :: after ∧
      firstClaim before d.name = some first ∧
      x = .duplicateName d.name.text first.span d.span) ∧
    ((ofFile file).2 = [] ↔ (file.declared.map Declared.name).Nodup) := by
  obtain ⟨htracks, hreports⟩ := tracks_ofFile file
  refine ⟨fun n => ?_, htracks.nodup, fun n k s => File.registers_iff, file.registrations_perm,
    htracks.find, ?_, ?_, ?_⟩
  · rw [htracks.find, Option.isSome_map, Option.isSome_iff_ne_none, ne_eq,
      firstClaim_eq_none_iff, Classical.not_not, List.mem_map]
    constructor
    · rintro ⟨d, hd, rfl⟩
      exact ⟨d.kind, d.span, File.registers_iff.mpr ⟨d, hd, rfl, rfl, rfl⟩⟩
    · rintro ⟨k, s, hregisters⟩
      obtain ⟨d, hd, hname, -⟩ := File.registers_iff.mp hregisters
      exact ⟨d, hd, hname⟩
  · have hlength := length_repetitions [] file.declared
    rw [List.nil_append] at hlength
    rw [hreports, hlength]
    exact Nat.zero_add _
  · intro x
    rw [hreports, mem_repetitions]
    rfl
  · have hnone : (([] : List Declared).map Declared.name).Nodup := List.nodup_nil
    rw [hreports, repetitions_eq_nil_iff hnone, List.nil_append]

end ProtoSchema
