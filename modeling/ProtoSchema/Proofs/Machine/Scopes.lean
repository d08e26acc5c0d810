/-
Assembling with a stack of scopes.

The checks of the declarations are given the scope that a declaration stands in.  What works in
place keeps the scopes on a stack instead: a package and every message enter one and leave it
again, and a name is looked for from the innermost one, whichever this is then.  A scope that is
left must have been entered, and at the end none may be left over.  One more thing can go wrong
here: a range of numbers is stored with its upper bound excluded, and adding one to the largest
number there is has no result.

`Runs` says from which stack something starts, on which stack it ends, and which check it does
in between.  A message ends on the stack that it starts from, and so does a file, on the empty
one.  No range has an upper bound above the largest field number, so adding one to it is fine.
-/
import ProtoSchema.Proofs.Assembly.Numbered
import ProtoSchema.Proofs.Machine.Steps

namespace ProtoSchema

/-- What assembling a file keeps. -/
structure Assembler.State where
  /-- The scopes that were entered and not left, the innermost first. -/
  scopes : List FullName
  /-- What was reported so far, in order. -/
  log : List Diagnostic
deriving DecidableEq, Repr

/-- Something that assembles a part of a file. -/
abbrev Assembler (α : Type) : Type := StateT Assembler.State (Except Fault) α

namespace Assembler

variable {α β : Type}

/-! ### Steps -/

/-- A check, whose diagnostics are reported. -/
def check (c : Checked α) : Assembler α := fun s =>
  .ok (c.value, { s with log := s.log ++ c.diagnostics })

def enter (scope : FullName) : Assembler Unit := fun s =>
  .ok ((), { s with scopes := scope :: s.scopes })

def exit : Assembler Unit := fun s =>
  match s.scopes with
  | [] => .error .noScope
  | _ :: scopes => .ok ((), { s with scopes })

/-- The innermost of some scopes, or the outermost scope if there are none. -/
def innermost (scopes : List FullName) : FullName := scopes.headD .root

/-- The scope that declarations stand in. -/
def scope : Assembler FullName := fun s => .ok (innermost s.scopes, s)

/-- The next number, which must be a signed integer of 32 bits. -/
def successor (n : Int) : Assembler Int :=
  if n + 1 ≤ IntegerType.signed32.max then pure (n + 1) else throw .overflow

/-! ### Declarations -/

/-- A range with the upper bound excluded. -/
def halfOpen (r : CheckedRange) : Assembler RangeDescriptor := do
  match r.stop with
  | some b => do
    let stop ← successor b
    pure ⟨r.start, some stop⟩
  | none => pure ⟨r.start, none⟩

/-- A range that is left to extensions, with its options. -/
def extensionRange (r : CheckedRange × Option (Options NoOption)) :
    Assembler ExtensionRangeDescriptor := do
  let range ← halfOpen r.1
  pure ⟨range, r.2⟩

/-- The descriptor of a message whose items have been assembled. -/
def close (name : Ident) (parts : Context.MessageParts) (options : List OptionStatement)
    (reserved : List Reserved) (extensions : List Extensions) : Assembler MessageDescriptor := do
  let reservations ← check (Reserved.check NumberRange.checkMessage reserved)
  let reservedRanges ← reservations.ranges.mapM halfOpen
  let checkedRanges ← check (Checked.each Context.extensionRanges extensions)
  let extensionRanges ← checkedRanges.flatten.mapM extensionRange
  check (checkFieldNumbers reservations (checkedRanges.flatten.map Prod.fst) []
    (parts.fields.map fun x => (x.2.number, x.1)))
  let options ← check (optionsOf (Context.settings options))
  pure {
    name := name.text
    fields := parts.fields.map Prod.snd
    extensions := parts.extensions
    nested := parts.nested
    enums := parts.enums
    extensionRanges
    oneofs := parts.oneofs ++ parts.presence
    options
    reservedRanges
    reservedNames := reservations.names.map Ident.text }

/-- The extensions that a block declares, where it stands. -/
def extensions (ctx : Context) (e : Extend) : Assembler (List FieldDescriptor) := do
  let around ← scope
  check (ctx.extensions around e)

/-- A service, where it stands. -/
def service (ctx : Context) (s : Service) : Assembler ServiceDescriptor := do
  let around ← scope
  check (ctx.service around s)

mutual

/-- A message, where it stands. -/
def message (ctx : Context) : Message → Assembler MessageDescriptor
  | ⟨name, items, options, reserved, extensions, _⟩ => do
    let around ← scope
    enter (around.child name.text)
    let parts ← messageItems ctx 0 (items.countP Context.isOneof) items
    let d ← close name parts options reserved extensions
    exit
    pure d

/-- What the items of a message contribute. -/
def messageItems (ctx : Context) :
    (oneofIndex presenceIndex : Nat) → List MessageItem → Assembler Context.MessageParts
  | _, _, [] => pure .empty
  | oneofIndex, presenceIndex, i :: is => do
    let parts ← messageItem ctx oneofIndex presenceIndex i
    let more ← messageItems ctx (oneofIndex + parts.oneofs.length)
      (presenceIndex + parts.presence.length) is
    pure (parts ++ more)

def messageItem (ctx : Context) (oneofIndex presenceIndex : Nat) :
    MessageItem → Assembler Context.MessageParts
  | .field f => do
    let around ← scope
    check (ctx.fieldParts around presenceIndex f)
  | .oneof o => do
    let around ← scope
    check (ctx.oneofParts around oneofIndex o)
  | .message m => do
    let d ← message ctx m
    pure { Context.MessageParts.empty with nested := [d] }
  | .enum e => do
    let d ← check (ctx.enum e)
    pure { Context.MessageParts.empty with enums := [d] }
  | .extend e => do
    let ds ← extensions ctx e
    pure { Context.MessageParts.empty with extensions := ds }

end

/-- Enters the package of a file, if it has one. -/
def enterPackage : Option Package → Assembler Unit
  | some p => enter (Package.scope (some p))
  | none => pure ()

/-- Leaves the package of a file, if it has one. -/
def exitPackage : Option Package → Assembler Unit
  | some _ => exit
  | none => pure ()

/-- The descriptor of a file, whose declarations stand in its package if it has one. -/
def file (file : File) (name : String) (symbols : SymbolTable) : Assembler FileDescriptor := do
  let ctx := file.context symbols
  enterPackage file.package
  let messages ← file.messages.mapM (message ctx)
  let enums ← check (Checked.each ctx.enum file.enums)
  let extensions ← file.extendBlocks.mapM (extensions ctx)
  let services ← file.services.mapM (service ctx)
  let options ← check (optionsOf (Context.settings file.options))
  exitPackage file.package
  pure {
    name
    package := file.package.map fun p => Package.scope (some p)
    dependencies := file.imports.map Import.path
    publicDependencies := file.importPlaces .publicImport
    weakDependencies := file.importPlaces .weakImport
    messages
    enums
    services
    extensions := extensions.flatten
    options
    dialect := file.dialect }

/-- Assembles a file.  All scopes must have been left in the end. -/
def describe (file : File) (name : String) (symbols : SymbolTable) :
    Except Fault (Checked FileDescriptor) :=
  match Assembler.file file name symbols ⟨[], []⟩ with
  | .ok (d, s) => if s.scopes.isEmpty then .ok ⟨d, s.log⟩ else .error .openScope
  | .error f => .error f

/-! ### Runs -/

/-- Started on some scopes, `m` does what a check does, and ends on the scopes `after`. -/
def Runs (before : List FullName) (m : Assembler α) (after : List FullName) (c : Checked α) :
    Prop :=
  ∀ log, m ⟨before, log⟩ = .ok (c.value, ⟨after, log ++ c.diagnostics⟩)

namespace Runs

variable {before mid after : List FullName}

theorem pure (a : α) : Runs before (pure a) before (pure a) := fun log => by
  rw [Checked.diagnostics_pure, List.append_nil]
  rfl

theorem bind {m : Assembler α} {c : Checked α} {f : α → Assembler β} {g : α → Checked β}
    (hm : Runs before m mid c) (hf : Runs mid (f c.value) after (g c.value)) :
    Runs before (m >>= f) after (c >>= g) := fun log => by
  have hrun : (m >>= f) ⟨before, log⟩ = f c.value ⟨mid, log ++ c.diagnostics⟩ := by
    show (m ⟨before, log⟩ >>= fun x => f x.1 x.2) = _
    rw [hm log]
    rfl
  rw [hrun, hf, Checked.value_bind, Checked.diagnostics_bind, List.append_assoc]

theorem check (c : Checked α) : Runs before (check c) before c := fun _ => rfl

/-- Before a part that reports nothing, both do the rest. -/
theorem silent {m : Assembler α} {a : α} {f : α → Assembler β} {c : Checked β}
    (hm : Runs before m mid (Pure.pure a)) (hf : Runs mid (f a) after c) :
    Runs before (m >>= f) after c :=
  bind (g := fun _ => c) hm hf

theorem enter (scope : FullName) : Runs before (enter scope) (scope :: before) (Pure.pure ()) :=
  fun log => by
    rw [Checked.diagnostics_pure, List.append_nil]
    rfl

theorem exit (scope : FullName) : Runs (scope :: after) exit after (Pure.pure ()) := fun log => by
  rw [Checked.diagnostics_pure, List.append_nil]
  rfl

/-- What needs to know where it stands is told the innermost scope. -/
theorem inScope {f : FullName → Assembler β} {c : Checked β}
    (h : Runs before (f (innermost before)) after c) : Runs before (scope >>= f) after c :=
  fun log => h log

theorem mapM {f : α → Assembler β} {g : α → Checked β} (as : List α)
    (h : ∀ a ∈ as, Runs before (f a) before (g a)) :
    Runs before (as.mapM f) before (Checked.each g as) := by
  induction as with
  | nil =>
      rw [List.mapM_nil, Checked.each]
      exact pure _
  | cons a as ih =>
      rw [List.mapM_cons, Checked.each]
      exact bind (h a (.head _)) (bind (ih fun b hb => h b (.tail _ hb)) (pure _))

/-- What reports nothing for any element of a list does what a map does. -/
theorem mapM_silent {f : α → Assembler β} {g : α → β} (as : List α)
    (h : ∀ a ∈ as, Runs before (f a) before (Pure.pure (g a))) :
    Runs before (as.mapM f) before (Pure.pure (as.map g)) := by
  have heach : Checked.each (fun a => Pure.pure (g a)) as = Pure.pure (as.map g) := by
    ext1
    · rw [Checked.value_each, Checked.value_pure]
      rfl
    · rw [Checked.diagnostics_each, Checked.diagnostics_pure, List.flatMap_eq_nil_iff]
      exact fun _ _ => rfl
  rw [← heach]
  exact mapM as h

/-! ### Ranges -/

/-- Field numbers are so small that one more is an integer. -/
theorem successor {n : Int} (h : n ≤ maxFieldNumber) :
    Runs before (successor n) before (Pure.pure (n + 1)) := by
  have hlarge : maxFieldNumber + 1 ≤ IntegerType.signed32.max := by decide
  rw [Assembler.successor, if_pos (Int.le_trans (Int.add_le_add_right h 1) hlarge)]
  exact pure _

theorem halfOpen {r : CheckedRange} (h : ∀ b, r.stop = some b → b ≤ maxFieldNumber) :
    Runs before (halfOpen r) before (Pure.pure (Context.halfOpen r)) := by
  obtain ⟨start, stop, span⟩ := r
  cases stop with
  | none => exact pure _
  | some b => exact silent (successor (h b rfl)) (pure _)

theorem extensionRange {r : CheckedRange × Option (Options NoOption)}
    (h : ∀ b, r.1.stop = some b → b ≤ maxFieldNumber) :
    Runs before (extensionRange r) before (Pure.pure ⟨Context.halfOpen r.1, r.2⟩) :=
  silent (halfOpen h) (pure _)

/-- Closing a message, whose ranges have all been checked. -/
theorem close (before : List FullName) (name : Ident) (parts : Context.MessageParts)
    (options : List OptionStatement) (reserved : List Reserved) (extensions : List Extensions) :
    Runs before (close name parts options reserved extensions) before
      (Context.close name parts options reserved extensions) := by
  unfold Assembler.close Context.close
  exact bind (check _) (silent (mapM_silent _ fun r hr => halfOpen (Context.bounds_reserved r hr))
    (bind (check _) (silent
      (mapM_silent _ fun r hr => extensionRange (Context.bounds_extensionRanges r hr))
      (bind (check _) (bind (check _) (pure _))))))

/-! ### Declarations -/

variable (ctx : Context)

theorem extensions (e : Extend) : Runs before (extensions ctx e) before
    (ctx.extensions (innermost before) e) :=
  inScope (check _)

theorem service (s : Service) : Runs before (service ctx s) before
    (ctx.service (innermost before) s) :=
  inScope (check _)

mutual

/-- A message enters a scope, and leaves it behind everything that it declares. -/
theorem message (before : List FullName) : (m : Message) →
    Runs before (message ctx m) before (ctx.message (innermost before) m)
  | ⟨name, items, options, reserved, extensions, _⟩ => by
    have hitems := messageItems ((innermost before).child name.text :: before) items 0
      (items.countP Context.isOneof)
    rw [Assembler.message, Context.message]
    refine inScope (silent (enter _) (bind hitems ?_))
    have hclose := close ((innermost before).child name.text :: before) name
      (ctx.messageItems ((innermost before).child name.text) 0 (items.countP Context.isOneof)
        items).value options reserved extensions
    have hleave := bind hclose (f := fun d => Assembler.exit >>= fun _ => Pure.pure d)
      (g := Pure.pure) (silent (exit _) (pure _))
    rw [bind_pure] at hleave
    exact hleave

theorem messageItems (before : List FullName) : (items : List MessageItem) →
    ∀ oneofIndex presenceIndex : Nat,
      Runs before (messageItems ctx oneofIndex presenceIndex items) before
        (ctx.messageItems (innermost before) oneofIndex presenceIndex items)
  | [], _, _ => by
    rw [Assembler.messageItems, Context.messageItems]
    exact pure _
  | i :: is, o, p => by
    rw [Assembler.messageItems, Context.messageItems]
    exact bind (messageItem before i o p) (bind (messageItems before is _ _) (pure _))

theorem messageItem (before : List FullName) : (i : MessageItem) →
    ∀ oneofIndex presenceIndex : Nat,
      Runs before (messageItem ctx oneofIndex presenceIndex i) before
        (ctx.messageItem (innermost before) oneofIndex presenceIndex i)
  | .field f, o, p => by
    rw [Assembler.messageItem, Context.messageItem]
    exact inScope (check _)
  | .oneof x, o, p => by
    rw [Assembler.messageItem, Context.messageItem]
    exact inScope (check _)
  | .message m, o, p => by
    rw [Assembler.messageItem, Context.messageItem]
    exact bind (message before m) (pure _)
  | .enum e, o, p => by
    rw [Assembler.messageItem, Context.messageItem]
    exact bind (check _) (pure _)
  | .extend e, o, p => by
    rw [Assembler.messageItem, Context.messageItem]
    exact bind (extensions ctx e) (pure _)

end

/-- What a file enters it leaves again; in between, its declarations stand in its package. -/
theorem package (p : Option Package) : ∃ scopes,
    Runs [] (enterPackage p) scopes (Pure.pure ()) ∧
      Runs scopes (exitPackage p) [] (Pure.pure ()) ∧ innermost scopes = Package.scope p := by
  cases p with
  | none => exact ⟨[], pure (), pure (), rfl⟩
  | some p => exact ⟨[_], enter _, exit _, rfl⟩

/-- A file starts on no scopes and ends on none, whether it has a package or not. -/
theorem file (f : File) (name : String) (symbols : SymbolTable) :
    Runs [] (file f name symbols) [] (f.describe name symbols) := by
  unfold Assembler.file File.describe
  dsimp only
  obtain ⟨scopes, henter, hexit, hscope⟩ := package f.package
  rw [← hscope]
  exact silent henter (bind (mapM _ fun m _ => message _ scopes m) (bind (check _)
    (bind (mapM _ fun e _ => extensions _ e) (bind (mapM _ fun s _ => service _ s)
      (bind (check _) (silent hexit (pure _)))))))

end Runs

/-- No scope is left that was not entered, none is left over, and no number is too large. -/
theorem describe_eq (f : File) (name : String) (symbols : SymbolTable) :
    describe f name symbols = .ok (f.describe name symbols) := by
  rw [describe, Runs.file f name symbols []]
  rfl

end Assembler

end ProtoSchema
