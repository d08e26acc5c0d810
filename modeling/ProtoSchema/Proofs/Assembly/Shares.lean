/-
What each declaration has its share in.

A file is checked in one go, and a message together with everything within it.  So what is reported
of a message stands between reports of other messages.  Taken apart by topics, and up to order, the
reports of a file are those of its messages, each on its own, and those of what stands beside them.
This is shown by a walk over the messages of a file.  It comes by every message once, and so every
share is counted once.

What is reported of a source is this, what parsing reports, and which names are declared twice.
Nothing that parsing reports is about the meaning of a declaration.
-/
import Mathlib.Data.List.Perm.Basic
import ProtoSchema.Proofs.Assembly.Origins
import ProtoSchema.Proofs.Assembly.Topics
import ProtoSchema.Proofs.Parsing.Noted

namespace ProtoSchema

open Checked

/-! ### Checks of numbers -/

namespace Checked

@[simp] theorem about_checkMessageNumber (n : IntLiteral) :
    n.checkMessageNumber.About .numbers := by
  unfold IntLiteral.checkMessageNumber
  split
  · split
    · exact about_pure _
    · simp [Diagnostic.topic]
  · simp [Diagnostic.topic]

@[simp] theorem about_checkFieldNumber (n : IntLiteral) : n.checkFieldNumber.About .numbers := by
  unfold IntLiteral.checkFieldNumber
  rw [about_bind]
  refine ⟨about_checkMessageNumber n, ?_⟩
  split
  · simp [Diagnostic.topic]
  · exact about_pure _

@[simp] theorem about_checkEnumNumber (n : IntLiteral) : n.checkEnumNumber.About .numbers := by
  unfold IntLiteral.checkEnumNumber
  split
  · exact about_pure _
  · simp [Diagnostic.topic]

theorem about_check {number : IntLiteral → Checked (Option Int)}
    (h : ∀ n, (number n).About .numbers) (r : NumberRange) (greatest : Int) :
    (r.check number greatest).About .numbers := by
  rw [check_eq, about_bind, about_bind]
  refine ⟨h _, ?_, ?_⟩
  · unfold stopOf
    split
    · exact about_pure _
    · exact h _
    · exact about_pure _
  · unfold rangeOf
    split
    · split
      · simp [Diagnostic.topic]
      · exact about_pure _
    · exact about_pure _

@[simp] theorem about_checkMessage (r : NumberRange) : r.checkMessage.About .numbers :=
  about_check about_checkMessageNumber r _

@[simp] theorem about_checkEnum (r : NumberRange) : r.checkEnum.About .numbers :=
  about_check about_checkEnumNumber r _

theorem about_reserved {range : NumberRange → Checked CheckedRange}
    (h : ∀ r, (range r).About .numbers) (rs : List Reserved) :
    (Reserved.check range rs).About .numbers := by
  unfold Reserved.check
  simp only [about_bind, about_each, about_pure, and_true]
  intro r _
  split
  · simp [h]
  · exact about_pure _

@[simp] theorem about_checkUnreserved (reserved extensions : List CheckedRange) (number : Int)
    (span : Span) : (checkUnreserved reserved extensions number span).About .numbers := by
  unfold checkUnreserved
  dsimp only
  split
  · split
    · simp [Diagnostic.topic]
    · simp [Diagnostic.topic]
  · split
    · simp [Diagnostic.topic]
    · exact about_pure _

@[simp] theorem about_checkUnreservedName (reserved : List Ident) (name : Ident) :
    (checkUnreservedName reserved name).About .numbers := by
  unfold checkUnreservedName
  split
  · simp [Diagnostic.topic]
  · exact about_pure _

@[simp] theorem about_checkFieldNumbers (reservations : Reservations)
    (extensions : List CheckedRange) (fs : List (Option Int × Field)) :
    ∀ seen, (checkFieldNumbers reservations extensions seen fs).About .numbers := by
  induction fs with
  | nil => intro seen; exact about_pure _
  | cons p fs ih =>
      intro seen
      obtain ⟨number, f⟩ := p
      cases number with
      | none =>
          rw [checkFieldNumbers, about_bind]
          exact ⟨about_checkUnreservedName _ _, ih seen⟩
      | some n =>
          rw [checkFieldNumbers]
          dsimp only
          split
          · simp [Diagnostic.topic, ih]
          · simp [ih]

/-! ### Types and defaults of fields -/

@[simp] theorem about_typeOf (ctx : Context) (scope : FullName) (f : Field) :
    (typeOf ctx scope f).About .others := by
  unfold typeOf
  split
  · exact about_fieldType ctx scope _
  · exact about_pure _

@[simp] theorem about_defaultOf (ctx : Context) (f : Field) (label : Label) (type : FieldType)
    (default : Option OptionSetting) : (defaultOf ctx f label type default).About .options := by
  unfold defaultOf
  split
  · exact about_defaultValue ctx _ _ _ _
  · exact about_pure _

end Checked

/-! ### What declarations report apart from numbers -/

namespace Context

variable (ctx : Context) (scope : FullName) {t : Topic}

theorem on_field (ht : t ≠ .numbers) (f : Field) (label : Label) :
    (ctx.field scope f label).on t = (typeOf ctx scope f).on t ++ ((fieldOptions f.options).on t ++
      (defaultOf ctx f label (typeOf ctx scope f).value (fieldOptions f.options).value.default).on
        t) := by
  rw [field_eq]
  simp [on_of_about_ne (about_checkFieldNumber _) ht.symm]

theorem on_extensions (e : Extend) : (ctx.extensions scope e).on t =
    (ctx.messageType scope e.extendee).on t ++ e.fields.flatMap fun f =>
      f.checkExtensionLabel.on t ++ (ctx.field scope f f.checkExtensionLabel.value).on t := by
  unfold extensions
  simp

theorem on_enumValue (ht : t ≠ .numbers) (v : EnumValue) : (enumValue v).on t =
    (optionsOf (OptionList.settingsOf v.options) :
      Checked (Option (Options EnumValueOption))).on t := by
  unfold enumValue
  simp [on_of_about_ne (about_checkEnumNumber _) ht.symm]

theorem on_enum (ht : t ≠ .numbers) (e : Enum) : (ctx.enum e).on t =
    (ctx.checkFirstValue e).on t ++ (e.values.flatMap (fun v => (enumValue v).on t) ++
      (optionsOf (settings e.options) : Checked (Option (Options EnumOption))).on t) := by
  unfold Context.enum
  simp only [on_bind, on_each, on_pure, List.append_nil]
  rw [on_of_about_ne (about_reserved about_checkEnum e.reserved) ht.symm, List.nil_append]
  refine congrArg _ (congrArg _ ?_)
  refine (congrArg (· ++ _) (List.flatMap_eq_nil_iff.mpr ?_)).trans (List.nil_append _)
  rintro ⟨⟨name, number, options⟩, v⟩ _
  cases number with
  | none => exact on_of_about_ne (about_checkUnreservedName _ _) ht.symm
  | some n =>
      exact on_of_about_ne (about_bind.mpr ⟨about_checkUnreserved _ _ _ _,
        about_checkUnreservedName _ _⟩) ht.symm

theorem on_extensionRanges (ht : t ≠ .numbers) (e : Extensions) : (extensionRanges e).on t =
    (optionsOf (OptionList.settingsOf e.options) : Checked (Option (Options NoOption))).on t := by
  unfold extensionRanges
  simp [on_of_about_ne (about_checkMessage _) ht.symm]

theorem on_close (ht : t ≠ .numbers) (name : Ident) (parts : MessageParts)
    (options : List OptionStatement) (reserved : List Reserved) (extensions : List Extensions) :
    (close name parts options reserved extensions).on t =
      extensions.flatMap (fun e => (extensionRanges e).on t) ++
        (optionsOf (settings options) : Checked (Option (Options MessageOption))).on t := by
  unfold close
  simp only [on_bind, on_each, on_pure, List.append_nil]
  rw [on_of_about_ne (about_reserved about_checkMessage reserved) ht.symm,
    on_of_about_ne (about_checkFieldNumbers _ _ _ _) ht.symm, List.nil_append, List.nil_append]

theorem on_method (m : Method) : (ctx.method scope m).on t =
    (ctx.messageType scope m.input).on t ++ ((ctx.messageType scope m.output).on t ++
      (optionsOf (settings m.options) : Checked (Option (Options MethodOption))).on t) := by
  unfold method
  simp

theorem on_service (s : Service) : (ctx.service scope s).on t =
    s.methods.flatMap (fun m => (ctx.method scope m).on t) ++
      (optionsOf (settings s.options) : Checked (Option (Options ServiceOption))).on t := by
  unfold service
  simp

end Context

/-! ### What a message reports on its own -/

namespace Context

variable (ctx : Context) (scope : FullName) (t : Topic)

/-- What an item reports about a topic, unless it is a message. -/
def itemReports : MessageItem → List Diagnostic
  | .message _ => []
  | .field f => (ctx.fieldParts scope 0 f).on t
  | .oneof o => (ctx.oneofParts scope 0 o).on t
  | .enum e => (ctx.enum e).on t
  | .extend e => (ctx.extensions scope e).on t

/-- The last step of a message, when its items have been assembled. -/
def closing (m : Message) : Checked MessageDescriptor :=
  close m.name
    (ctx.messageItems (scope.child m.name.text) 0 (m.items.countP isOneof) m.items).value
    m.options m.reserved m.extensions

/-- What a message reports about a topic, apart from the messages within it. -/
def ownReports (m : Message) : List Diagnostic :=
  m.items.flatMap (ctx.itemReports (scope.child m.name.text) t) ++ (ctx.closing scope m).on t

theorem on_message (m : Message) : (ctx.message scope m).on t =
    (ctx.messageItems (scope.child m.name.text) 0 (m.items.countP isOneof) m.items).on t ++
      (ctx.closing scope m).on t := by
  rw [message_eq, on_bind]
  rfl

/-- It makes no difference to reports at which place the oneof of a field stands. -/
theorem on_fieldParts (index : Nat) (f : Field) : (ctx.fieldParts scope index f).on t =
    (ctx.mapEntry? scope f).on t ++ ((f.checkLabel ctx.dialect).on t ++
      (ctx.field scope f (f.checkLabel ctx.dialect).value.1).on t) := by
  unfold fieldParts
  simp only [on_bind]
  split
  · rw [on_pure, List.append_nil]
  · rw [on_pure, List.append_nil]

theorem on_oneofParts (index : Nat) (o : Oneof) : (ctx.oneofParts scope index o).on t =
    (reportIf o.fields.isEmpty (.emptyOneof o.name.span)).on t ++
      ((optionsOf (settings o.options) : Checked (Option (Options NoOption))).on t ++
        o.fields.flatMap fun f =>
          f.checkOneofLabel.on t ++ (ctx.field scope f f.checkOneofLabel.value).on t) := by
  unfold oneofParts
  simp only [on_bind, on_each, on_pure, List.append_nil]

mutual

theorem reports_message (scope : FullName) : (m : Message) →
    ((ctx.message scope m).on t).Perm
      ((m.walk scope).flatMap fun p => ctx.ownReports p.1 t p.2)
  | ⟨name, items, options, reserved, extensions, span⟩ => by
      rw [on_message, Message.walk_eq, List.flatMap_cons, ownReports, List.append_assoc]
      refine ((reports_items (scope.child name.text) items 0 _).append_right _).trans ?_
      rw [List.append_assoc]
      exact List.perm_append_comm.append_left _

theorem reports_items (scope : FullName) : (items : List MessageItem) → ∀ o p : Nat,
    ((ctx.messageItems scope o p items).on t).Perm
      (items.flatMap (ctx.itemReports scope t) ++
        (MessageItem.walkAll scope items).flatMap fun p => ctx.ownReports p.1 t p.2)
  | [] => fun _ _ => .refl _
  | i :: is => by
      intro o p
      rw [messageItems, on_bind, on_bind, on_pure, List.append_nil, List.flatMap_cons,
        MessageItem.walkAll, List.flatMap_append]
      refine ((reports_item scope i o p).append (reports_items scope is _ _)).trans ?_
      simp only [List.append_assoc]
      refine List.Perm.append_left _ ?_
      rw [← List.append_assoc, ← List.append_assoc]
      exact List.perm_append_comm.append_right _

theorem reports_item (scope : FullName) : (i : MessageItem) → ∀ o p : Nat,
    ((ctx.messageItem scope o p i).on t).Perm
      (ctx.itemReports scope t i ++ (i.walk scope).flatMap fun p => ctx.ownReports p.1 t p.2)
  | .message m => by
      intro o p
      rw [messageItem, on_bind, on_pure, List.append_nil, itemReports, List.nil_append]
      exact reports_message scope m
  | .field f => fun o p => by
      rw [MessageItem.walk, List.flatMap_nil, List.append_nil, messageItem, itemReports,
        on_fieldParts, on_fieldParts]
  | .oneof o => fun _ _ => by
      rw [MessageItem.walk, List.flatMap_nil, List.append_nil, messageItem, itemReports,
        on_oneofParts, on_oneofParts]
  | .enum e => fun o p => by
      rw [MessageItem.walk, List.flatMap_nil, List.append_nil, messageItem, itemReports, on_bind,
        on_pure, List.append_nil]
  | .extend e => fun o p => by
      rw [MessageItem.walk, List.flatMap_nil, List.append_nil, messageItem, itemReports, on_bind,
        on_pure, List.append_nil]

end

end Context

/--
What a file reports about a topic is what its messages report, each on its own, and what stands
beside them.
-/
theorem File.reports_describe (file : File) (name : String) (symbols : SymbolTable) (t : Topic) :
    ((file.describe name symbols).on t).Perm
      ((file.heldMessages.flatMap fun p => (file.context symbols).ownReports p.1 t p.2) ++
        (file.enums.flatMap (fun e => ((file.context symbols).enum e).on t) ++
        (file.extendBlocks.flatMap (fun e =>
            ((file.context symbols).extensions (Package.scope file.package) e).on t) ++
        (file.services.flatMap (fun s =>
            ((file.context symbols).service (Package.scope file.package) s).on t) ++
        (optionsOf (Context.settings file.options) :
          Checked (Option (Options FileOption))).on t)))) := by
  unfold File.describe
  simp only [on_bind, on_each, on_pure, List.append_nil]
  refine List.Perm.append_right _ ?_
  unfold heldMessages
  rw [List.flatMap_assoc]
  exact List.Perm.flatMap_left _ fun m _ => Context.reports_message _ t _ m

/-! ### The report on a source -/

/-- What is reported of names is that they are declared twice. -/
theorem SymbolTable.topic_ofFile (file : File) :
    ∀ d ∈ (SymbolTable.ofFile file).2, d.topic = .others := by
  intro d hd
  rw [(tracks_ofFile file).2] at hd
  obtain ⟨_, _, _, _, -, -, rfl⟩ := mem_repetitions.mp hd
  rfl

/--
What is reported of a source is what parsing reports, none of which is about the meaning of a
declaration, which names are declared twice, and what the checks of the file report.
-/
theorem report_of_readText {name source : String} {schema : Schema}
    (h : readText name source = .ok schema) :
    ∃ file parsing, parseFile source.toList = .tree file parsing ∧
      (∀ d ∈ parsing, d.category ≠ .semantic) ∧
      schema.descriptor = (file.describe name (SymbolTable.ofFile file).1).value ∧
      schema.report.diagnostics.Perm (parsing ++ ((SymbolTable.ofFile file).2 ++
        (file.describe name (SymbolTable.ofFile file).1).diagnostics)) := by
  obtain ⟨file, parsing, hparse, hdesc, hreport⟩ := tree_of_readText h
  refine ⟨file, parsing, hparse, fun d hd => ?_, hdesc, hreport⟩
  have hmem : d ∈ (parseFile source.toList).diagnostics := by
    rw [hparse]
    exact hd
  exact category_ne_semantic_of_parseFile hmem

end ProtoSchema
