/-
Every option of a file is accounted for.

Each option of a declaration has its fate, and what the descriptor of that declaration says about
options is what those fates amount to.  Declarations of seven kinds have options, and each kind has
a set of known ones of its own.  For all of them there is one notion of an account, and the
accounts of a message are those of its parts, in the order of the source.

Two known options of a field are properties of the field itself.  Its name in JSON is there without
being set, and its default is checked only when its type is known.  What becomes of a default is
not said here.  It is a rule that accounts depend on, so that one induction over the tree of a file
serves for all that there is to say about defaults (`Context.Obeys`).

What is reported of the options of a file is shared out among its declarations without remainder:
the report has what the accounts have, as often as they have it, and nothing else about options.
-/
import ProtoSchema.Proofs.Assembly.Entries

namespace ProtoSchema

open Checked

/-! ### Lists of accounts -/

/-- Descriptors account for declarations, one for each and in order, and share what is reported. -/
inductive AccountsEach {α β : Type} (R : α → β → List Diagnostic → Prop) :
    List α → List β → List Diagnostic → Prop
  | nil : AccountsEach R [] [] []
  | cons {a : α} {b : β} {share shares : List Diagnostic} {as : List α} {bs : List β} :
      R a b share → AccountsEach R as bs shares →
        AccountsEach R (a :: as) (b :: bs) (share ++ shares)

namespace AccountsEach

variable {α β γ : Type} {R : α → β → List Diagnostic → Prop}

theorem of_forall₂ {share : α → List Diagnostic} {as : List α} {bs : List β}
    (h : List.Forall₂ (fun a b => R a b (share a)) as bs) :
    AccountsEach R as bs (as.flatMap share) := by
  induction h with
  | nil => exact .nil
  | cons hab _ ih =>
      rw [List.flatMap_cons]
      exact .cons hab ih

theorem map {f : α → β} {share : α → List Diagnostic} {as : List α}
    (h : ∀ a ∈ as, R a (f a) (share a)) : AccountsEach R as (as.map f) (as.flatMap share) := by
  refine of_forall₂ ?_
  rw [List.forall₂_map_right_iff, List.forall₂_same]
  exact h

theorem append {as as' : List α} {bs bs' : List β} {shares shares' : List Diagnostic}
    (h : AccountsEach R as bs shares) (h' : AccountsEach R as' bs' shares') :
    AccountsEach R (as ++ as') (bs ++ bs') (shares ++ shares') := by
  induction h with
  | nil => exact h'
  | cons hab _ ih =>
      rw [List.append_assoc]
      exact .cons hab ih

theorem flatMap {f : γ → List α} {g : γ → List β} {shares : γ → List Diagnostic} {cs : List γ}
    (h : ∀ c ∈ cs, AccountsEach R (f c) (g c) (shares c)) :
    AccountsEach R (cs.flatMap f) (cs.flatMap g) (cs.flatMap shares) := by
  induction cs with
  | nil => exact .nil
  | cons c cs ih =>
      obtain ⟨hc, hcs⟩ := List.forall_mem_cons.mp h
      exact hc.append (ih hcs)

end AccountsEach

/-! ### Accounts of declarations -/

def EnumValue.Accounts (v : EnumValue) (d : EnumValueDescriptor) (share : List Diagnostic) :
    Prop :=
  AccountsFor EnumValueOption.known (OptionList.settingsOf v.options) d.options share

def Oneof.Accounts (o : Oneof) (d : OneofDescriptor) (share : List Diagnostic) : Prop :=
  AccountsFor NoOption.known (Context.settings o.options) d.options share

def Method.Accounts (m : Method) (d : MethodDescriptor) (share : List Diagnostic) : Prop :=
  AccountsFor MethodOption.known (Context.settings m.options) d.options share

/-- All ranges of a statement have the options of that statement. -/
def Extensions.Accounts (e : Extensions) (rs : List ExtensionRangeDescriptor)
    (share : List Diagnostic) : Prop :=
  rs.length = e.ranges.length ∧ ∃ options,
    AccountsFor NoOption.known (OptionList.settingsOf e.options) options share ∧
      ∀ r ∈ rs, r.options = options

def Enum.Accounts (e : Enum) (d : EnumDescriptor) (share : List Diagnostic) : Prop :=
  ∃ values own, AccountsEach EnumValue.Accounts e.values d.values values ∧
    AccountsFor EnumOption.known (Context.settings e.options) d.options own ∧
    share = values ++ own

def Service.Accounts (s : Service) (d : ServiceDescriptor) (share : List Diagnostic) : Prop :=
  ∃ methods own, AccountsEach Method.Accounts s.methods d.methods methods ∧
    AccountsFor ServiceOption.known (Context.settings s.options) d.options own ∧
    share = methods ++ own

/-- What comes of the default of a field: its descriptor, and what is reported of the default. -/
abbrev DefaultRule := Field → FieldDescriptor → OptionSetting → List Diagnostic → Prop

variable (rule : DefaultRule)

/-- The descriptor of a field, by the fates of its options and what is reported of its default. -/
structure Field.Reads (f : Field) (d : FieldDescriptor) (fates : List (OptionFate FieldOption))
    (late : List Diagnostic) : Prop where
  options : HoldsOptions d.options
    ((fates.filterMap OptionFate.setting?).filter (·.1 ≠ .jsonName))
    (fates.filterMap OptionFate.kept?)
  jsonName : (∃ s, .sets .jsonName (.text s) ∈ fates ∧ d.jsonName = s) ∨
    (∀ value, .sets .jsonName value ∉ fates) ∧ d.jsonName = jsonName f.name.text
  default : (∃ o, .deferred .defaultValue o ∈ fates ∧ rule f d o late) ∨
    (∀ o, .deferred .defaultValue o ∉ fates) ∧ d.defaultValue = none ∧ late = []

def Field.Accounts (f : Field) (d : FieldDescriptor) (share : List Diagnostic) : Prop :=
  ∃ fates late, HaveFates FieldOption.known [] (OptionList.settingsOf f.options) fates ∧
    f.Reads rule d fates late ∧ share = fates.flatMap OptionFate.diagnostics ++ late

namespace MessageItem

/-- The enums that an item declares. -/
def enums : MessageItem → List Enum
  | .enum e => [e]
  | _ => []

def extendBlocks : MessageItem → List Extend
  | .extend e => [e]
  | _ => []

end MessageItem

namespace Message

def enums (m : Message) : List Enum := m.items.flatMap MessageItem.enums

def extendBlocks (m : Message) : List Extend := m.items.flatMap MessageItem.extendBlocks

/-- What is reported of the options of a message, by its parts. -/
structure Shares where
  fields : List Diagnostic
  oneofs : List Diagnostic
  enums : List Diagnostic
  extensions : List Diagnostic
  extensionRanges : List Diagnostic
  own : List Diagnostic

def Shares.all (s : Shares) : List Diagnostic :=
  s.fields ++ (s.oneofs ++ (s.enums ++ (s.extensions ++ (s.extensionRanges ++ s.own))))

/-- The parts of a message account for their options, and so does the message itself. -/
structure HasShares (m : Message) (d : MessageDescriptor) (s : Shares) : Prop where
  fields : AccountsEach (fun x => x.field.Accounts rule) m.fieldMembers d.fields s.fields
  oneofs : AccountsEach Oneof.Accounts m.oneofs (d.oneofs.take m.oneofs.length) s.oneofs
  enums : AccountsEach Enum.Accounts m.enums d.enums s.enums
  extensions : AccountsEach (Field.Accounts rule) (m.extendBlocks.flatMap Extend.fields)
    d.extensions s.extensions
  extensionRanges : ∃ groups, d.extensionRanges = groups.flatten ∧
    AccountsEach Extensions.Accounts m.extensions groups s.extensionRanges
  own : AccountsFor MessageOption.known (Context.settings m.options) d.options s.own

/-- A message accounts for its options, apart from the messages within it. -/
def Accounts (m : Message) (d : MessageDescriptor) (share : List Diagnostic) : Prop :=
  ∃ s, m.HasShares rule d s ∧ share = s.all

end Message

namespace File

/-- What is reported of the options of a file, by its parts. -/
structure Shares where
  messages : List Diagnostic
  enums : List Diagnostic
  extensions : List Diagnostic
  services : List Diagnostic
  own : List Diagnostic

def Shares.all (s : Shares) : List Diagnostic :=
  s.messages ++ (s.enums ++ (s.extensions ++ (s.services ++ s.own)))

/-- The messages of a file at any depth account for their options, and so does what is beside. -/
structure HasShares (file : File) (d : FileDescriptor) (s : Shares) : Prop where
  messages : AccountsEach (fun p q share => q.1 = p.1.child p.2.name.text ∧
    p.2.Accounts rule q.2 share) file.heldMessages d.ownMessages s.messages
  enums : AccountsEach Enum.Accounts file.enums d.enums s.enums
  extensions : AccountsEach (Field.Accounts rule) (file.extendBlocks.flatMap Extend.fields)
    d.extensions s.extensions
  services : AccountsEach Service.Accounts file.services d.services s.services
  own : AccountsFor FileOption.known (Context.settings file.options) d.options s.own

/-- What a file declares as a field, in the scope where it stands. -/
inductive DeclaresField (file : File) : FullName → Field → Prop
  | member {scope : FullName} {f : Field} : file.HoldsField scope f → DeclaresField file scope f
  | extension {scope : FullName} {e : Extend} {f : Field} : file.Holds scope (.extend e) →
      f ∈ e.fields → DeclaresField file scope f

end File

/-- The check of the default of a field follows a rule. -/
def Context.Obeys (ctx : Context) (scope : FullName) (f : Field) : Prop :=
  ∀ o ∈ OptionList.settingsOf f.options, ∀ d : FieldDescriptor,
    d.type = some (typeOf ctx scope f).value →
    d.defaultValue = (ctx.defaultValue f.kind d.label (typeOf ctx scope f).value o).value →
      rule f d o (ctx.defaultValue f.kind d.label (typeOf ctx scope f).value o).diagnostics

/-! ### Fields -/

section Keys

variable {κ : Type} {fates : List (OptionFate κ)} {key : κ}

theorem mem_settings_iff {value : SettingValue} :
    (key, value) ∈ fates.filterMap OptionFate.setting? ↔ .sets key value ∈ fates := by
  rw [List.mem_filterMap]
  constructor
  · rintro ⟨fate, hmem, hset⟩
    cases fate with
    | sets key' value' =>
        obtain ⟨rfl, rfl⟩ := Prod.mk.inj (Option.some.inj hset)
        exact hmem
    | _ => cases hset
  · exact fun hmem => ⟨_, hmem, rfl⟩

theorem mem_deferred_iff {o : OptionSetting} :
    (key, o) ∈ fates.filterMap OptionFate.deferred? ↔ .deferred key o ∈ fates := by
  rw [List.mem_filterMap]
  constructor
  · rintro ⟨fate, hmem, hset⟩
    cases fate with
    | deferred key' o' =>
        obtain ⟨rfl, rfl⟩ := Prod.mk.inj (Option.some.inj hset)
        exact hmem
    | _ => cases hset
  · exact fun hmem => ⟨_, hmem, rfl⟩

end Keys

/-- What is looked up in a list is in it, and what is not found is not. -/
theorem lookup_cases {κ α : Type} [DecidableEq κ] (key : κ) (entries : List (κ × α)) :
    (∃ a, entries.lookup key = some a ∧ (key, a) ∈ entries) ∨
      entries.lookup key = none ∧ ∀ a, (key, a) ∉ entries := by
  cases hlookup : entries.lookup key with
  | some a =>
      obtain ⟨front, behind, rfl, -⟩ := List.lookup_eq_some_iff.mp hlookup
      exact .inl ⟨a, rfl, List.mem_append_right _ List.mem_cons_self⟩
  | none =>
      refine .inr ⟨rfl, fun a hmem => ?_⟩
      have hne := List.lookup_eq_none_iff.mp hlookup _ hmem
      simp at hne

namespace Context

variable {rule} {ctx : Context} {scope : FullName}

/-- What the options of a field amount to is what their fates amount to. -/
theorem exists_fates_fieldOptions (list : Option OptionList) :
    ∃ fates : List (OptionFate FieldOption),
      HaveFates FieldOption.known [] (OptionList.settingsOf list) fates ∧
      HoldsOptions (fieldOptions list).value.options
        ((fates.filterMap OptionFate.setting?).filter (·.1 ≠ .jsonName))
        (fates.filterMap OptionFate.kept?) ∧
      ((∃ s, .sets .jsonName (.text s) ∈ fates ∧ (fieldOptions list).value.jsonName = some s) ∨
        (∀ value, .sets .jsonName value ∉ fates) ∧ (fieldOptions list).value.jsonName = none) ∧
      ((∃ o, .deferred .defaultValue o ∈ fates ∧ (fieldOptions list).value.default = some o) ∨
        (∀ o, .deferred .defaultValue o ∉ fates) ∧ (fieldOptions list).value.default = none) ∧
      (fieldOptions list).diagnostics = fates.flatMap OptionFate.diagnostics := by
  obtain ⟨fates, hfates, hvalue, hfound⟩ :=
    exists_fates (OptionList.settingsOf list) ([] : List (FieldOption × Span)) [] fun _ => rfl
  have hread : (readOptions (OptionList.settingsOf list) :
      Checked (OptionReading FieldOption)).value = _ := hvalue
  unfold fieldOptions
  refine ⟨fates, OptionKey.entries_field ▸ hfates, ?_, ?_, ?_, ?_⟩
  · simp only [value_bind, value_pure, hread]
    exact holdsOptions_nonempty? _ _
  · simp only [value_bind, value_pure, hread]
    rcases lookup_cases FieldOption.jsonName (fates.filterMap OptionFate.setting?) with
      ⟨value, hlookup, hmem⟩ | ⟨hlookup, hnone⟩
    · have hset := mem_settings_iff.mp hmem
      obtain ⟨word, form, hknown, o, -, -, hreads⟩ := hfates.exists_of_sets hset
      obtain ⟨-, rfl⟩ := OptionKey.mem_entries_iff.mp hknown
      -- The form of this option is text, so nothing else can have been read for it.
      generalize o.value = written at hreads
      rw [hlookup]
      cases hreads with
      | text _ => exact .inl ⟨_, hset, rfl⟩
    · rw [hlookup]
      exact .inr ⟨fun value hset => hnone value (mem_settings_iff.mpr hset), rfl⟩
  · simp only [value_bind, value_pure, hread]
    rcases lookup_cases FieldOption.defaultValue (fates.filterMap OptionFate.deferred?) with
      ⟨o, hlookup, hmem⟩ | ⟨hlookup, hnone⟩
    · exact .inl ⟨o, mem_deferred_iff.mp hmem, hlookup⟩
    · exact .inr ⟨fun o hset => hnone o (mem_deferred_iff.mpr hset), hlookup⟩
  · rw [diagnostics_bind, diagnostics_pure, List.append_nil]
    exact hfound

/-- A field accounts for its options, wherever it is declared. -/
theorem accounts_field {f : Field} (hrule : ctx.Obeys rule scope f) (label : Label)
    (extendee : Option TypeRef) (place : Option Nat) (tracks : Bool) :
    f.Accounts rule
      { (ctx.field scope f label).value with
        extendee := extendee, oneofIndex := place, proto3Optional := tracks }
      ((ctx.field scope f label).on .options) := by
  obtain ⟨fates, hfates, hoptions, hjson, hdefault, hfound⟩ := exists_fates_fieldOptions f.options
  -- What is reported about the options of a field is what their fates and the default report.
  have hshare : (ctx.field scope f label).on .options = fates.flatMap OptionFate.diagnostics ++
      (defaultOf ctx f label (typeOf ctx scope f).value
        (fieldOptions f.options).value.default).diagnostics := by
    rw [on_field ctx scope Topic.noConfusion,
      on_of_about_ne (about_typeOf ctx scope f) Topic.noConfusion,
      on_of_about (about_fieldOptions _), on_of_about (about_defaultOf _ _ _ _ _), hfound,
      List.nil_append]
  refine ⟨fates, _, hfates, ?_, hshare⟩
  rw [field_eq]
  refine ⟨hoptions, ?_, ?_⟩
  · rcases hjson with ⟨s, hset, hs⟩ | ⟨hnot, hs⟩
    · refine .inl ⟨s, hset, ?_⟩
      show (fieldOptions f.options).value.jsonName.getD _ = s
      rw [hs]
      rfl
    · refine .inr ⟨hnot, ?_⟩
      show (fieldOptions f.options).value.jsonName.getD _ = _
      rw [hs]
      rfl
  · rcases hdefault with ⟨o, hset, ho⟩ | ⟨hnot, ho⟩
    · refine .inl ⟨o, hset, ?_⟩
      simp only [value_bind, value_pure]
      rw [ho]
      exact hrule o (hfates.exists_of_deferred hset).1 _ rfl rfl
    · refine .inr ⟨hnot, ?_, ?_⟩
      · simp only [value_bind, value_pure]
        rw [ho]
        rfl
      · rw [ho]
        rfl

end Context

/-! ### Declarations with options of their own -/

section Keys

variable {κ : Type} [OptionKey κ] [DecidableEq κ] [LawfulOptionKey κ]
  {known : List (KnownOption κ)}

/-- Options that can all be read on their own are accounted for. -/
theorem accounts_optionsOf (hentries : OptionKey.entries κ = known)
    (hknown : ∀ entry ∈ known, entry.form ≠ .deferred) (os : List OptionSetting) :
    AccountsFor known os (optionsOf os : Checked (Option (Options κ))).value
      ((optionsOf os : Checked (Option (Options κ))).on .options) := by
  subst hentries
  rw [on_of_about (about_optionsOf os)]
  exact accountsFor_optionsOf hknown os

end Keys

namespace Context

variable {rule} {ctx : Context} {scope : FullName}

theorem accounts_enumValue (v : EnumValue) :
    v.Accounts (enumValue v).value ((enumValue v).on .options) := by
  rw [on_enumValue Topic.noConfusion]
  exact accounts_optionsOf OptionKey.entries_enumValue (by decide) _

theorem accounts_enum (e : Enum) : e.Accounts (ctx.enum e).value ((ctx.enum e).on .options) := by
  have hvalues : AccountsEach EnumValue.Accounts e.values (ctx.enum e).value.values
      (e.values.flatMap fun v => (enumValue v).on .options) := by
    unfold Context.enum
    simp only [value_bind, value_each, value_pure]
    exact .map fun v _ => accounts_enumValue v
  refine ⟨_, _, hvalues, accounts_optionsOf OptionKey.entries_enum (by decide) _, ?_⟩
  rw [on_enum ctx Topic.noConfusion, on_of_about_ne (about_checkFirstValue ctx e)
    Topic.noConfusion, List.nil_append]

theorem accounts_method (m : Method) :
    m.Accounts (ctx.method scope m).value ((ctx.method scope m).on .options) := by
  rw [on_method, on_of_about_ne (about_messageType ctx scope m.input) Topic.noConfusion,
    on_of_about_ne (about_messageType ctx scope m.output) Topic.noConfusion, List.nil_append,
    List.nil_append]
  exact accounts_optionsOf OptionKey.entries_method (by decide) _

theorem accounts_service (s : Service) :
    s.Accounts (ctx.service scope s).value ((ctx.service scope s).on .options) := by
  have hmethods : AccountsEach Method.Accounts s.methods (ctx.service scope s).value.methods
      (s.methods.flatMap fun m => (ctx.method scope m).on .options) := by
    unfold service
    simp only [value_bind, value_each, value_pure]
    exact .map fun m _ => accounts_method m
  exact ⟨_, _, hmethods, accounts_optionsOf OptionKey.entries_service (by decide) _,
    ctx.on_service scope s⟩

/-- The descriptors of the ranges that a statement leaves to extensions. -/
def rangesOf (e : Extensions) : List ExtensionRangeDescriptor :=
  (extensionRanges e).value.map fun (r, o) => ⟨halfOpen r, o⟩

theorem accounts_extensionRanges (e : Extensions) :
    e.Accounts (rangesOf e) ((extensionRanges e).on .options) := by
  rw [on_extensionRanges Topic.noConfusion]
  have hranges : rangesOf e = e.ranges.map fun r => ⟨halfOpen r.checkMessage.value,
      (optionsOf (OptionList.settingsOf e.options)).value⟩ := by
    unfold rangesOf extensionRanges
    simp only [value_bind, value_each, value_pure, List.map_map]
    rfl
  refine ⟨?_, _, accounts_optionsOf OptionKey.entries_none (by decide) _, ?_⟩
  · rw [hranges, List.length_map]
  · rw [hranges]
    intro r hr
    obtain ⟨_, -, rfl⟩ := List.mem_map.mp hr
    rfl

/-- The fields of a block account for their options. -/
theorem accounts_extensions {e : Extend} (hrule : ∀ f ∈ e.fields, ctx.Obeys rule scope f) :
    AccountsEach (Field.Accounts rule) e.fields (ctx.extensions scope e).value
      ((ctx.extensions scope e).on .options) := by
  have hshare : (ctx.extensions scope e).on .options = e.fields.flatMap fun f =>
      (ctx.field scope f f.checkExtensionLabel.value).on .options := by
    rw [on_extensions, on_of_about_ne (about_messageType ctx scope _) Topic.noConfusion,
      List.nil_append]
    refine List.flatMap_congr fun f _ => ?_
    rw [on_of_about_ne (about_checkExtensionLabel f) Topic.noConfusion, List.nil_append]
  rw [hshare, value_extensions]
  exact .map fun f hf => accounts_field (hrule f hf) _ _ _ _

end Context

/-! ### Messages -/

namespace Context

variable {rule} {ctx : Context} {scope : FullName}

/-- What a member reports of its options. -/
def optionReports (ctx : Context) (scope : FullName) (x : Member) : List Diagnostic :=
  (ctx.field scope x.field (x.label ctx.dialect)).on .options

/-- What an item reports of options, by the kinds of its parts. -/
theorem itemReports_options (ctx : Context) (scope : FullName) (place : Nat) (i : MessageItem) :
    (ctx.itemReports scope .options i).Perm
      ((i.members place).flatMap (ctx.optionReports scope) ++
        (i.oneofs.flatMap (fun o => (optionsOf (settings o.options) :
            Checked (Option (Options NoOption))).on .options) ++
          (i.enums.flatMap (fun e => (ctx.enum e).on .options) ++
            i.extendBlocks.flatMap fun e => (ctx.extensions scope e).on .options))) := by
  cases i with
  | field f =>
      have hentry : (ctx.mapEntry? scope f).on .options = [] := by
        unfold mapEntry?
        split
        · rfl
        · simp [on_eq (about_keyType _ _), on_eq (about_fieldType _ _ _)]
      rw [itemReports, on_fieldParts, hentry,
        on_of_about_ne (about_checkLabel f ctx.dialect) Topic.noConfusion]
      simp [MessageItem.members, MessageItem.oneofs, MessageItem.enums, MessageItem.extendBlocks,
        optionReports, Member.label]
  | oneof o =>
      have hempty : (reportIf o.fields.isEmpty (.emptyOneof o.name.span)).About .others :=
        about_reportIf.mpr fun _ => rfl
      rw [itemReports, on_oneofParts, on_of_about_ne hempty Topic.noConfusion, List.nil_append]
      refine List.perm_append_comm.trans (List.Perm.of_eq ?_)
      simp [MessageItem.members, MessageItem.oneofs, MessageItem.enums, MessageItem.extendBlocks,
        optionReports, Member.label, on_eq (about_checkOneofLabel _), List.flatMap_map]
  | message m => exact .refl _
  | enum e =>
      exact List.Perm.of_eq (by simp [itemReports, MessageItem.members, MessageItem.oneofs,
        MessageItem.enums, MessageItem.extendBlocks])
  | extend e =>
      exact List.Perm.of_eq (by simp [itemReports, MessageItem.members, MessageItem.oneofs,
        MessageItem.enums, MessageItem.extendBlocks])

/-- So do items, one after the other. -/
theorem itemsReports_options (ctx : Context) (scope : FullName) (items : List MessageItem) :
    ∀ place : Nat,
    (items.flatMap (ctx.itemReports scope .options)).Perm
      ((MessageItem.membersFrom place items).flatMap (ctx.optionReports scope) ++
        ((items.flatMap MessageItem.oneofs).flatMap (fun o => (optionsOf (settings o.options) :
            Checked (Option (Options NoOption))).on .options) ++
          ((items.flatMap MessageItem.enums).flatMap (fun e => (ctx.enum e).on .options) ++
            (items.flatMap MessageItem.extendBlocks).flatMap
              fun e => (ctx.extensions scope e).on .options))) := by
  induction items with
  | nil => exact fun _ => .refl _
  | cons i is ih =>
      intro place
      -- Parts of one kind are brought together, and how often a report occurs stays the same.
      have hi := itemReports_options ctx scope place i
      have his := ih (place + i.oneofs.length)
      rw [List.perm_iff_count] at hi his ⊢
      intro d
      have hd := hi d
      have hds := his d
      simp only [List.flatMap_cons, MessageItem.membersFrom, List.flatMap_append,
        List.count_append] at hd hds ⊢
      omega

/-- What a message reports of options, by its parts. -/
def messageShares (ctx : Context) (scope : FullName) (m : Message) : Message.Shares where
  fields := m.fieldMembers.flatMap (ctx.optionReports (scope.child m.name.text))
  oneofs := m.oneofs.flatMap fun o =>
    (optionsOf (settings o.options) : Checked (Option (Options NoOption))).on .options
  enums := m.enums.flatMap fun e => (ctx.enum e).on .options
  extensions := m.extendBlocks.flatMap fun e =>
    (ctx.extensions (scope.child m.name.text) e).on .options
  extensionRanges := m.extensions.flatMap fun e => (extensionRanges e).on .options
  own := (optionsOf (settings m.options) : Checked (Option (Options MessageOption))).on .options

theorem ownReports_options (m : Message) :
    (ctx.ownReports scope .options m).Perm (ctx.messageShares scope m).all := by
  have hitems := itemsReports_options ctx (scope.child m.name.text) m.items 0
  unfold ownReports closing
  rw [on_close Topic.noConfusion]
  refine (hitems.append_right _).trans (List.Perm.of_eq ?_)
  unfold messageShares Message.Shares.all Message.fieldMembers Message.oneofs Message.enums
    Message.extendBlocks
  simp only [List.append_assoc]

theorem enums_eq_map (m : Message) :
    (ctx.message scope m).value.enums = m.enums.map fun e => (ctx.enum e).value := by
  rw [(ctx.contents_message scope m).2.1, Message.enums, List.map_flatMap]
  refine List.flatMap_congr fun i _ => ?_
  cases i <;> rfl

theorem extensions_eq_flatMap (m : Message) : (ctx.message scope m).value.extensions =
    m.extendBlocks.flatMap fun e => (ctx.extensions (scope.child m.name.text) e).value := by
  rw [(ctx.contents_message scope m).2.2, Message.extendBlocks, List.flatMap_assoc]
  refine List.flatMap_congr fun i _ => ?_
  cases i with
  | extend e => exact (List.append_nil _).symm
  | _ => rfl

theorem extensionRanges_eq_flatten (m : Message) :
    (ctx.message scope m).value.extensionRanges = (m.extensions.map rangesOf).flatten := by
  rw [message_eq]
  unfold close
  simp only [value_bind, value_each, value_pure, List.map_flatten, List.map_map]
  rfl

/-- A message accounts for its options. -/
theorem hasShares_message {m : Message}
    (hmembers : ∀ x ∈ m.fieldMembers, ctx.Obeys rule (scope.child m.name.text) x.field)
    (hextensions : ∀ e ∈ m.extendBlocks, ∀ f ∈ e.fields,
      ctx.Obeys rule (scope.child m.name.text) f) :
    m.HasShares rule (ctx.message scope m).value (ctx.messageShares scope m) where
  fields := by
    refine .of_forall₂ (List.forall₂_iff_get.mpr ⟨?_, ?_⟩)
    · rw [(ctx.assembles_message scope m).fields, List.length_mapIdx]
    · intro k hk hk'
      simp only [(ctx.assembles_message scope m).fields, List.get_eq_getElem, List.getElem_mapIdx]
      exact accounts_field (hmembers _ (List.getElem_mem hk)) _ _ _ _
  oneofs := by
    rw [oneofs_message, List.take_left' (List.length_map _)]
    exact .map fun o _ => accounts_optionsOf OptionKey.entries_none (by decide) _
  enums := by
    rw [enums_eq_map]
    exact .map fun e _ => accounts_enum e
  extensions := by
    rw [extensions_eq_flatMap]
    exact .flatMap fun e he => accounts_extensions (hextensions e he)
  extensionRanges :=
    ⟨_, extensionRanges_eq_flatten m, .map fun e _ => accounts_extensionRanges e⟩
  own := by
    rw [message_eq]
    exact accounts_optionsOf OptionKey.entries_message (by decide) _

end Context

/-! ### Files -/

namespace File

variable {rule} {file : File} {name : String} {symbols : SymbolTable} {scope : FullName}

theorem Holds.declaresField_member {m : Message} (h : file.Holds scope (.message m)) {x : Member}
    (hx : x ∈ m.fieldMembers) : file.DeclaresField (scope.child m.name.text) x.field := by
  obtain ⟨i, hi, place, hx⟩ := MessageItem.mem_membersFrom m.items 0 hx
  have hitem : file.Holds (scope.child m.name.text) i := .within h hi
  cases i with
  | field f =>
      obtain rfl := List.mem_singleton.mp hx
      exact .member (.field hitem)
  | oneof o =>
      obtain ⟨f, hf, rfl⟩ := List.mem_map.mp hx
      exact .member (.oneof hitem hf)
  | message m => cases hx
  | enum e => cases hx
  | extend e => cases hx

theorem Holds.declaresField_extension {m : Message} (h : file.Holds scope (.message m))
    {e : Extend} (he : e ∈ m.extendBlocks) {f : Field} (hf : f ∈ e.fields) :
    file.DeclaresField (scope.child m.name.text) f := by
  obtain ⟨i, hi, he⟩ := List.mem_flatMap.mp he
  have hitem : file.Holds (scope.child m.name.text) i := .within h hi
  cases i with
  | extend e' =>
      obtain rfl := List.mem_singleton.mp he
      exact .extension hitem hf
  | field f => cases he
  | oneof o => cases he
  | message m => cases he
  | enum e => cases he

/-- What a file reports of options, by its parts. -/
def shares (file : File) (ctx : Context) : Shares where
  messages := file.heldMessages.flatMap fun p => (ctx.messageShares p.1 p.2).all
  enums := file.enums.flatMap fun e => (ctx.enum e).on .options
  extensions := file.extendBlocks.flatMap fun e =>
    (ctx.extensions (Package.scope file.package) e).on .options
  services := file.services.flatMap fun s =>
    (ctx.service (Package.scope file.package) s).on .options
  own := (optionsOf (Context.settings file.options) :
    Checked (Option (Options FileOption))).on .options

/-- What a file reports of options is shared out without remainder. -/
theorem options_describe (file : File) (name : String) (symbols : SymbolTable) :
    ((file.describe name symbols).on .options).Perm
      (file.shares (file.context symbols)).all := by
  refine (file.reports_describe name symbols .options).trans (List.Perm.append_right _ ?_)
  exact List.Perm.flatMap_left _ fun p _ => Context.ownReports_options p.2

/-- A file accounts for its options if the defaults of all fields follow the rule. -/
theorem hasShares_describe
    (hrule : ∀ scope f, file.DeclaresField scope f → (file.context symbols).Obeys rule scope f) :
    file.HasShares rule (file.describe name symbols).value
      (file.shares (file.context symbols)) where
  messages := by
    rw [ownMessages_describe]
    refine .map fun p hp => ⟨rfl, _, ?_, rfl⟩
    have hm : file.Holds p.1 (.message p.2) := mem_heldMessages.mp hp
    exact Context.hasShares_message (fun x hx => hrule _ _ (hm.declaresField_member hx))
      fun e he f hf => hrule _ _ (hm.declaresField_extension he hf)
  enums := by
    unfold File.describe
    simp only [value_bind, value_each, value_pure]
    exact .map fun e _ => Context.accounts_enum e
  extensions := by
    unfold File.describe
    simp only [value_bind, value_each, value_pure, ← List.flatMap_def]
    exact .flatMap fun e he => Context.accounts_extensions fun f hf =>
      hrule _ f (.extension (.extend he) hf)
  services := by
    unfold File.describe
    simp only [value_bind, value_each, value_pure]
    exact .map fun s _ => Context.accounts_service s
  own := accounts_optionsOf OptionKey.entries_file (by decide) _

end File

/-! ### Sources -/

/-- A default is stored, or there is none and one thing is reported of it. -/
def Field.StoresDefault : DefaultRule := fun _ d _ late =>
  (∃ text, d.defaultValue = some text ∧ late = []) ∨ d.defaultValue = none ∧ ∃ x, late = [x]

namespace Checked

variable {α β : Type}

/-- There is a value, or one thing is reported. -/
def Decides (c : Checked (Option α)) : Prop :=
  (∃ a, c.value = some a ∧ c.diagnostics = []) ∨ c.value = none ∧ ∃ d, c.diagnostics = [d]

theorem decides_some (a : α) : (pure (some a) : Checked (Option α)).Decides := .inl ⟨a, rfl, rfl⟩

theorem decides_report (d : Diagnostic) : (do report d; pure none : Checked (Option α)).Decides :=
  .inr ⟨rfl, d, rfl⟩

theorem Decides.map {c : Checked (Option α)} (h : c.Decides) (f : α → β) :
    (do let a ← c; pure (a.map f)).Decides := by
  rcases h with ⟨a, hvalue, hfound⟩ | ⟨hvalue, d, hfound⟩
  · refine .inl ⟨f a, ?_, ?_⟩
    · rw [value_bind, hvalue]
      rfl
    · rw [diagnostics_bind, hfound]
      rfl
  · refine .inr ⟨?_, d, ?_⟩
    · rw [value_bind, hvalue]
      rfl
    · rw [diagnostics_bind, hfound]
      rfl

end Checked

namespace OptionValue

theorem decides_checkFlag (v : OptionValue) : v.checkFlag.Decides := by
  rcases v.checkFlag_cases with ⟨b, -, h⟩ | ⟨-, h⟩
  · rw [h]
    exact decides_some b
  · rw [h]
    exact decides_report _

theorem decides_checkBytes (v : OptionValue) : v.checkBytes.Decides := by
  unfold checkBytes
  split
  · exact decides_some _
  · exact decides_report _

theorem decides_checkText (v : OptionValue) : v.checkText.Decides := by
  rcases v.checkText_cases with ⟨text, -, h⟩ | ⟨s, -, -, h⟩ | ⟨-, -, h⟩
  · rw [h]
    exact decides_some text
  · rw [h]
    exact decides_report _
  · rw [h]
    exact decides_report _

theorem decides_checkInteger (v : OptionValue) (t : IntegerType) :
    (v.checkInteger t).Decides := by
  unfold checkInteger checkBetween
  split
  · split
    · exact decides_some _
    · exact decides_report _
  · exact decides_report _

theorem decides_checkFloat (v : OptionValue) : v.checkFloat.Decides := by
  unfold checkFloat
  split
  · exact decides_some _
  · exact decides_some _
  · split
    · exact decides_some _
    · split
      · exact decides_some _
      · exact decides_report _
  · exact decides_report _

theorem decides_checkEnumValue (v : OptionValue) (symbols : SymbolTable) (enum : FullName) :
    (v.checkEnumValue symbols enum).Decides := by
  unfold checkEnumValue
  split
  · split
    · exact decides_some _
    · exact decides_report _
  · exact decides_report _

theorem decides_checkScalar (v : OptionValue) (s : ScalarType) : (v.checkScalar s).Decides := by
  unfold checkScalar
  split
  · exact (v.decides_checkInteger _).map _
  · split
    · exact v.decides_checkFlag.map _
    · exact v.decides_checkText
    · exact v.decides_checkBytes.map _
    · exact v.decides_checkFloat

end OptionValue

namespace Context

variable {ctx : Context} {scope : FullName}

theorem decides_defaultValue (ctx : Context) (kind : FieldKind) (label : Label)
    (type : FieldType) (o : OptionSetting) : (ctx.defaultValue kind label type o).Decides := by
  unfold defaultValue
  split
  · exact decides_report _
  · split
    · exact decides_report _
    · split
      · exact o.value.decides_checkScalar _
      · exact o.value.decides_checkEnumValue _ _
      · exact decides_some _
      · exact decides_some _

theorem obeys_storesDefault (f : Field) : ctx.Obeys Field.StoresDefault scope f := by
  intro o _ d _ hdefault
  unfold Field.StoresDefault
  rw [hdefault]
  exact decides_defaultValue _ _ _ _ _

end Context

/-- Of what is reported of a source, what options are due stands apart. -/
theorem shares_of_readText {name source : String} {schema : Schema}
    (h : readText name source = .ok schema) :
    ∃ file parsing others, parseFile source.toList = .tree file parsing ∧
      schema.descriptor = (file.describe name (SymbolTable.ofFile file).1).value ∧
      (∀ d ∈ parsing, d.category ≠ .semantic) ∧ (∀ d ∈ others, d.topic ≠ .options) ∧
      schema.report.diagnostics.Perm
        (parsing ++ (others ++ (file.shares (file.context (SymbolTable.ofFile file).1)).all)) := by
  obtain ⟨file, parsing, hparse, hsemantic, hdesc, hreport⟩ := report_of_readText h
  refine ⟨file, parsing, (SymbolTable.ofFile file).2 ++
      (file.describe name (SymbolTable.ofFile file).1).diagnostics.filter
        fun d => !decide (d.topic = .options), hparse, hdesc, hsemantic, ?_, ?_⟩
  · intro d hd
    rcases List.mem_append.mp hd with hd | hd
    · rw [SymbolTable.topic_ofFile file d hd]
      exact Topic.noConfusion
    · simpa using (List.mem_filter.mp hd).2
  · refine hreport.trans (List.Perm.append_left _ ?_)
    rw [List.append_assoc]
    refine List.Perm.append_left _ ?_
    refine (List.filter_append_perm (·.topic = .options) _).symm.trans ?_
    refine List.perm_append_comm.trans (List.Perm.append_left _ ?_)
    exact file.options_describe name _

/--
**Every option of every declaration is accounted for.**  In the descriptor of a source, at any
depth, the options of a declaration are what the fates of those that are written amount to; and
what is reported of a source is what parsing reports, what those options are due, and things that
are not about options.
-/
theorem accounts_of_readText {name source : String} {schema : Schema}
    (h : readText name source = .ok schema) :
    ∃ file parsing, parseFile source.toList = .tree file parsing ∧
      (∀ d ∈ parsing, d.category ≠ .semantic) ∧
      ∃ shares others, file.HasShares Field.StoresDefault schema.descriptor shares ∧
        (∀ d ∈ others, d.topic ≠ .options) ∧
        schema.report.diagnostics.Perm (parsing ++ (others ++ shares.all)) := by
  obtain ⟨file, parsing, others, hparse, hdesc, hsemantic, hothers, hreport⟩ := shares_of_readText h
  refine ⟨file, parsing, hparse, hsemantic, _, others, ?_, hothers, hreport⟩
  rw [hdesc]
  exact file.hasShares_describe fun scope f _ => Context.obeys_storesDefault f

/--
Options of declarations of every kind.  Some are set and some are kept; and there are three that
are set twice, two of the wrong form, one that is refused, and a number that is too small.
-/
def optionsText : String :=
  "option java_package = \"p\"; option java_package = \"q\"; option optimize_for = SPEED;
  message M \x7b
    option deprecated = true; option map_entry = true; option deprecated = false;
    option (m).x = 1;
    oneof o \x7b option deprecated = true; int32 c = 3; \x7d
    optional int32 a = 1 [default = 7, packed = 2, json_name = \"b\", jstype = JS_STRING];
    extensions 10 to 20 [(r).s = -9223372036854775809, t = -inf];
  \x7d
  enum E \x7b option allow_alias = true; A = 0 [deprecated = true, deprecated = false]; \x7d
  service S \x7b
    option deprecated = false;
    rpc R (M) returns (M) \x7b
      option idempotency_level = IDEMPOTENT; option deprecated = 3; option d = 3;
    \x7d
  \x7d"

/-- What there is of those options in a descriptor, for one kind of declaration after the other. -/
def FileDescriptor.HasMixedOptions (d : FileDescriptor) : Prop :=
  d.options = some ⟨[(.javaPackage, .text "p"), (.optimizeFor, .choice 1)], []⟩ ∧
  d.messages.map MessageDescriptor.options =
    [some ⟨[(.deprecated, .flag true)], [⟨[⟨"m", true⟩, ⟨"x", false⟩], some (.positive 1)⟩]⟩] ∧
  (d.messages.flatMap MessageDescriptor.oneofs).map OneofDescriptor.options =
    [some ⟨[], [⟨[⟨"deprecated", false⟩], some (.identifier "true")⟩]⟩] ∧
  (d.messages.flatMap MessageDescriptor.fields).map
      (fun f => (f.jsonName, f.defaultValue, f.options)) =
    [("c", none, none), ("b", some "7", some ⟨[(.jstype, .choice 1)], []⟩)] ∧
  (d.messages.flatMap MessageDescriptor.extensionRanges).map ExtensionRangeDescriptor.options =
    [some ⟨[], [⟨[⟨"r", true⟩, ⟨"s", false⟩], none⟩,
      ⟨[⟨"t", false⟩], some (.double Binary64.infinity.neg)⟩]⟩] ∧
  d.enums.map EnumDescriptor.options = [some ⟨[(.allowAlias, .flag true)], []⟩] ∧
  (d.enums.flatMap EnumDescriptor.values).map EnumValueDescriptor.options =
    [some ⟨[(.deprecated, .flag true)], []⟩] ∧
  d.services.map ServiceDescriptor.options = [some ⟨[(.deprecated, .flag false)], []⟩] ∧
  (d.services.flatMap ServiceDescriptor.methods).map MethodDescriptor.options =
    [some ⟨[(.idempotencyLevel, .choice 2)], [⟨[⟨"d", false⟩], some (.positive 3)⟩]⟩]

instance (d : FileDescriptor) : Decidable d.HasMixedOptions := inferInstanceAs (Decidable (_ ∧ _))

-- Every character of the text makes terms one deeper.
set_option maxRecDepth 4000 in
theorem accounts_of_readText_mixed :
    ∃ schema, readText "options.proto" optionsText = .ok schema ∧
      schema.descriptor.HasMixedOptions ∧ schema.report.diagnostics.length = 7 ∧
      ∃ file parsing, parseFile optionsText.toList = .tree file parsing ∧
        (∀ d ∈ parsing, d.category ≠ .semantic) ∧
        ∃ shares others, file.HasShares Field.StoresDefault schema.descriptor shares ∧
          (∀ d ∈ others, d.topic ≠ .options) ∧
          schema.report.diagnostics.Perm (parsing ++ (others ++ shares.all)) := by
  obtain ⟨schema, heq, htest⟩ := exists_of_any_readChars "options.proto" optionsText rfl
    (by decide +kernel)
    (fun s => s.descriptor.HasMixedOptions ∧ s.report.diagnostics.length = 7)
    (by decide +kernel)
  obtain ⟨hmixed, hlength⟩ := of_decide_eq_true htest
  exact ⟨schema, heq, hmixed, hlength, accounts_of_readText heq⟩

end ProtoSchema
