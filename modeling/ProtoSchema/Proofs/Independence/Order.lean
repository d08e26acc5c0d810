/-
The order of declarations does not matter.

A reference can point forwards or backwards, into the declaration it stands in or out of it.  It
is resolved with the table of the whole file.  The table keeps the first declaration of every
name, so it does depend on the order of declarations; but if no name is declared twice, first
claims are all there are, and tables of the same declarations in any order answer all questions
alike.

An `Arrangement` puts the messages of a file in another order, and so its enums, its extend
blocks and its services.  Orders are lists of places, so one order can be applied to declarations
and to what they were assembled to.
-/
import Mathlib.Data.List.Find
import Mathlib.Data.List.Nodup
import Mathlib.Data.List.SplitLengths
import ProtoSchema.Proofs.Linking.Registered
import ProtoSchema.Proofs.Relocation.Assembled

namespace ProtoSchema

/-! ### Orders -/

/-- The elements at some places of a list, in the order of the places. -/
def arranged {α : Type} (order : List Nat) (as : List α) : List α := order.filterMap (as[·]?)

section

variable {α β : Type} {order : List Nat} {as : List α}

theorem map_arranged (f : α → β) (order : List Nat) (as : List α) :
    (arranged order as).map f = arranged order (as.map f) := by
  simp [arranged, List.map_filterMap]

theorem mem_of_mem_arranged {a : α} (h : a ∈ arranged order as) : a ∈ as := by
  obtain ⟨i, -, hi⟩ := List.mem_filterMap.mp h
  exact List.mem_of_getElem? hi

/-- All places in their own order give the list as it is. -/
theorem arranged_range (as : List α) : arranged (List.range as.length) as = as := by
  induction as with
  | nil => rfl
  | cons a as ih =>
      rw [arranged, List.length_cons, List.range_succ_eq_map, List.filterMap_cons,
        List.filterMap_map]
      exact congrArg (a :: ·) ih

/-- An order of all places puts a list in another order. -/
theorem arranged_perm (h : order.Perm (List.range as.length)) : (arranged order as).Perm as := by
  have hperm := h.filterMap (as[·]?)
  rwa [← arranged, ← arranged, arranged_range] at hperm

end

/-- Other orders for the declarations of a file. -/
structure Arrangement where
  messages : List Nat
  enums : List Nat
  extendBlocks : List Nat
  services : List Nat

/-- The orders are orders of all declarations of a file. -/
structure Arrangement.Suits (a : Arrangement) (file : File) : Prop where
  messages : a.messages.Perm (List.range file.messages.length)
  enums : a.enums.Perm (List.range file.enums.length)
  extendBlocks : a.extendBlocks.Perm (List.range file.extendBlocks.length)
  services : a.services.Perm (List.range file.services.length)

/-- A file with its declarations in other orders. -/
def File.arranged (a : Arrangement) (file : File) : File :=
  { file with
    messages := ProtoSchema.arranged a.messages file.messages
    enums := ProtoSchema.arranged a.enums file.enums
    extendBlocks := ProtoSchema.arranged a.extendBlocks file.extendBlocks
    services := ProtoSchema.arranged a.services file.services }

/--
The descriptor with its declarations in other orders.  Extensions are kept in the groups of their
blocks, which have these lengths.
-/
def FileDescriptor.arranged (a : Arrangement) (groups : List Nat) (d : FileDescriptor) :
    FileDescriptor :=
  { d with
    messages := ProtoSchema.arranged a.messages d.messages
    enums := ProtoSchema.arranged a.enums d.enums
    services := ProtoSchema.arranged a.services d.services
    extensions := (ProtoSchema.arranged a.extendBlocks (groups.splitLengths d.extensions)).flatten }

/-! ### Tables of the same declarations -/

variable {a : Arrangement} {file : File}

theorem Arrangement.Suits.declared (h : a.Suits file) :
    (file.arranged a).declared.Perm file.declared := by
  unfold File.declared
  exact ((((List.Perm.refl _).append ((arranged_perm h.messages).flatMap_right _)).append
    ((arranged_perm h.enums).flatMap_right _)).append
      ((arranged_perm h.extendBlocks).flatMap_right _)).append
        ((arranged_perm h.services).flatMap_right _)

/-- Of names that are claimed once, the first claim does not depend on the order. -/
theorem firstClaim_perm {ds es : List Declared} (h : ds.Perm es)
    (hnames : (ds.map Declared.name).Nodup) (n : FullName) :
    firstClaim ds n = firstClaim es n := by
  refine List.find?_eq_find?_of_perm h fun d hd e he => ?_
  have hname : d.name = e.name :=
    (of_decide_eq_true hd.2).trans (of_decide_eq_true he.2).symm
  exact List.inj_on_of_nodup_map hnames hd.1 he.1 hname

/-- No name is declared twice, in whatever order. -/
theorem Arrangement.Suits.names (h : a.Suits file) (hnames : (SymbolTable.ofFile file).2 = []) :
    (file.declared.map Declared.name).Nodup ∧ (SymbolTable.ofFile (file.arranged a)).2 = [] := by
  have hnodup := SymbolTable.reports_eq_nil_iff.mp hnames
  refine ⟨hnodup, SymbolTable.reports_eq_nil_iff.mpr ?_⟩
  exact (h.declared.map Declared.name).nodup_iff.mpr hnodup

/-- Nothing changes, and nothing is silenced. -/
def Change.idle : Change := ⟨.still, false, Relocation.keepsText_still⟩

theorem Change.diagnostics_idle (ds : List Diagnostic) : Change.idle.diagnostics ds = ds := by
  have hstays : Diagnostic.moved idle.relocation = id := funext Relocation.stays_still.diagnostic
  rw [diagnostics, hstays, List.map_id]
  exact List.filter_eq_self.mpr fun d _ => rfl

/-- With tables of the same declarations in another order, names mean the same. -/
theorem Arrangement.Suits.context (h : a.Suits file)
    (hnames : (SymbolTable.ofFile file).2 = []) :
    (file.context (SymbolTable.ofFile file).1).Changed .idle
      (file.context (SymbolTable.ofFile (file.arranged a)).1) where
  dialect := rfl
  resolve := by
    refine SymbolTable.resolve_congr fun n => ?_
    have hfirst := firstClaim_perm h.declared.symm (h.names hnames).1 n.withoutDot
    rw [File.context, File.context, SymbolTable.kind?, SymbolTable.kind?,
      (SymbolTable.tracks_ofFile file).1.find, (SymbolTable.tracks_ofFile (file.arranged a)).1.find,
      hfirst]
  isEnumValue enum value := by
    have hmem : ∀ n, n ∈ (SymbolTable.ofFile (file.arranged a)).1.enumValues ↔
        n ∈ (SymbolTable.ofFile file).1.enumValues := by
      intro n
      rw [SymbolTable.ofFile, SymbolTable.mem_enumValues_declareAll, SymbolTable.ofFile,
        SymbolTable.mem_enumValues_declareAll]
      simp only [h.declared.mem_iff]
    rw [File.context, File.context, SymbolTable.isEnumValue, SymbolTable.isEnumValue,
      Bool.eq_iff_iff, List.contains_iff_mem, List.contains_iff_mem, hmem]
  hasImports := (Bool.or_false _).symm

/-! ### Descriptors -/

/-- A file is described alike with tables in which names mean the same. -/
theorem File.describe_congr (file : File) (name : String) {symbols symbols' : SymbolTable}
    (h : (file.context symbols).Changed .idle (file.context symbols')) :
    file.describe name symbols' = file.describe name symbols := by
  have hstill : file.moved Change.idle.relocation = file := file.moved_still
  have hcontext : (file.context symbols).Changed .idle
      (({ file.moved Change.idle.relocation with imports := file.imports } : File).context
        symbols') := by
    rw [hstill]
    exact h
  have hvalue : ∀ d : FileDescriptor, d.moved Change.idle.relocation = d :=
    Relocation.stays_still.fileDescriptor
  have hdescribe := file.describe_changed .idle name file.imports hcontext
  rw [hstill, Checked.told, Change.diagnostics_idle, hvalue] at hdescribe
  exact hdescribe

/-- The extensions of a block are as many as its fields. -/
theorem Context.length_extensions (ctx : Context) (scope : FullName) (e : Extend) :
    (ctx.extensions scope e).value.length = e.fields.length := by
  unfold Context.extensions
  rw [Checked.value_bind, Checked.value_each, List.length_map]

/-- A list of lists is made of parts of these lengths. -/
theorem splitLengths_flatten {α : Type} (groups : List (List α)) :
    (groups.map List.length).splitLengths groups.flatten = groups := by
  induction groups with
  | nil => rfl
  | cons g gs ih => simp [ih]

/-- In another order, with the same table, a file is described in that order. -/
theorem File.describe_reordered (file : File) (a : Arrangement) (name : String)
    (symbols : SymbolTable) (hclean : (file.describe name symbols).diagnostics = []) :
    (file.arranged a).describe name symbols =
      ⟨(file.describe name symbols).value.arranged a
        (file.extendBlocks.map fun e => e.fields.length), []⟩ := by
  have hlengths : (file.extendBlocks.map fun e => e.fields.length) =
      (file.extendBlocks.map fun e => (((file.context symbols).extensions
        (Package.scope file.package) e).value)).map List.length := by
    rw [List.map_map]
    exact List.map_congr_left fun e _ => (Context.length_extensions _ _ e).symm
  unfold File.describe at hclean
  simp only [Checked.diagnostics_bind, Checked.diagnostics_each, Checked.diagnostics_pure,
    List.append_eq_nil_iff, List.flatMap_eq_nil_iff] at hclean
  obtain ⟨hmessages, henums, hextensions, hservices, hoptions, -⟩ := hclean
  refine Checked.ext ?_ ?_
  · unfold File.describe
    simp only [Checked.value_bind, Checked.value_each, Checked.value_pure]
    rw [FileDescriptor.arranged, hlengths, splitLengths_flatten]
    simp only [File.arranged, ← map_arranged]
    rfl
  · unfold File.describe
    simp only [Checked.diagnostics_bind, Checked.diagnostics_each, Checked.diagnostics_pure,
      List.append_eq_nil_iff, List.flatMap_eq_nil_iff]
    exact ⟨fun d hd => hmessages d (mem_of_mem_arranged hd),
      fun e he => henums e (mem_of_mem_arranged he),
      fun e he => hextensions e (mem_of_mem_arranged he),
      fun x hx => hservices x (mem_of_mem_arranged hx), hoptions, trivial⟩

/--
**The order of declarations does not matter.**  A file without names that are declared twice,
and without other diagnostics, is put in another order: its messages, its enums, its extend
blocks and its services, each kind for itself.  Then nothing is wrong with it in that order
either, and its descriptor is what it was in that order, with every element unchanged.
-/
theorem File.describe_arranged (file : File) (a : Arrangement) (name : String) (h : a.Suits file)
    (hnames : (SymbolTable.ofFile file).2 = [])
    (hclean : (file.describe name (SymbolTable.ofFile file).1).diagnostics = []) :
    (SymbolTable.ofFile (file.arranged a)).2 = [] ∧
      (file.arranged a).describe name (SymbolTable.ofFile (file.arranged a)).1 =
        ⟨(file.describe name (SymbolTable.ofFile file).1).value.arranged a
          (file.extendBlocks.map fun e => e.fields.length), []⟩ := by
  refine ⟨(h.names hnames).2, ?_⟩
  rw [(file.arranged a).describe_congr name (h.context hnames)]
  exact file.describe_reordered a name _ hclean

/-- A file of two messages that hold each other, an enum, and two extend blocks. -/
def entwined : File :=
  let s := Span.point 0
  let field (type name : String) (number : UInt64) : Field :=
    ⟨none, .plain (.named ⟨none, ⟨type, s⟩, []⟩) s, ⟨name, s⟩, ⟨false, number, s⟩, none, s⟩
  { File.empty with
    messages := [⟨⟨"Left", s⟩, [.field (field "Right" "right" 1)], [], [], [], s⟩,
      ⟨⟨"Right", s⟩, [.field (field "Left" "left" 1), .field (field "Side" "side" 2)],
        [], [], [], s⟩]
    enums := [⟨⟨"Side", s⟩, [], [⟨⟨"MIDDLE", s⟩, ⟨false, 0, s⟩, none, s⟩], [], s⟩]
    extendBlocks := [⟨⟨none, ⟨"Left", s⟩, []⟩, [field "Side" "near" 10, field "Side" "far" 11], s⟩,
      ⟨⟨none, ⟨"Right", s⟩, []⟩, [field "Left" "other" 12], s⟩] }

/-- With the messages and the extend blocks exchanged, references mean what they meant. -/
theorem File.describe_arranged_entwined :
    Arrangement.Suits ⟨[1, 0], [0], [1, 0], []⟩ entwined ∧
      (SymbolTable.ofFile entwined).2 = [] ∧
      (entwined.describe "entwined.proto" (SymbolTable.ofFile entwined).1).diagnostics = [] ∧
      ((entwined.arranged ⟨[1, 0], [0], [1, 0], []⟩).describe "entwined.proto"
        (SymbolTable.ofFile (entwined.arranged ⟨[1, 0], [0], [1, 0], []⟩)).1).value.extensions.map
          FieldDescriptor.name = ["other", "near", "far"] := by
  have hsuits : Arrangement.Suits ⟨[1, 0], [0], [1, 0], []⟩ entwined :=
    ⟨by decide, by decide, by decide, by decide⟩
  have hnames : (SymbolTable.ofFile entwined).2 = [] := by decide +kernel
  have hclean :
      (entwined.describe "entwined.proto" (SymbolTable.ofFile entwined).1).diagnostics = [] := by
    decide +kernel
  refine ⟨hsuits, hnames, hclean, ?_⟩
  rw [(entwined.describe_arranged _ "entwined.proto" hsuits hnames hclean).2]
  decide +kernel

end ProtoSchema
