/-
What the checks of a declaration report.

Most checks look at one node of the tree, and report what is wrong with it at that node or at a part
of it.  What they report is plain (`Diagnostic.Plain`): its places stand in the source if the node
does, and it is not about a repetition.  Only two checks compare what they find with what they found
before: options are read one after the other, and so are the numbers of fields.  So a property that
all plain diagnostics have is one of everything that a declaration reports, if it is one of what is
reported about its options and about the numbers of its fields.  Of a repetition it may depend on
how the two places stand to each other; what comes earlier in a walk then has to stand so to what
comes later (`Admits`, `Related`).
-/
import ProtoSchema.Proofs.Assembly.Members
import ProtoSchema.Proofs.Assembly.Reservations
import ProtoSchema.Proofs.Assembly.Shares
import ProtoSchema.Proofs.Positions.Parsed

namespace ProtoSchema

variable {source : List Char}

/-! ### Diagnostics -/

namespace Diagnostic

/-- The two places that a diagnostic about a repetition names, in its order. -/
def repetition? : Diagnostic → Option (Span × Span)
  | duplicateSyntax a b | duplicatePackage a b | duplicateNumber _ a b | duplicateName _ a b
  | duplicateOption _ a b => some (a, b)
  | _ => none

/-- A repetition is about the second place, by which it is sorted. -/
theorem span_of_repetition {d : Diagnostic} {first second : Span}
    (h : d.repetition? = some (first, second)) : d.span = second := by
  cases d <;> cases h <;> rfl

/--
A diagnostic that is neither about a repetition nor one of the scanner's, and whose places stand in
the source.
-/
structure Plain (source : List Char) (d : Diagnostic) : Prop where
  fits : d.Fits source
  single : d.repetition? = none
  checked : d.isOfScanner = false

namespace Plain

variable {d : Diagnostic}

/-- A repetition has two labels. -/
theorem one {text : String} (hc : d.isOfScanner = false) (h : d.labels = [(text, d.span)])
    (hs : d.span.Fits source) : d.Plain source := by
  have hlength := congrArg List.length h
  refine ⟨.one h hs, ?_, hc⟩
  cases d <;> first | rfl | cases hlength

theorem two {first second : String × Span} (hc : d.isOfScanner = false)
    (hr : d.repetition? = none) (h : d.labels = [first, second]) (hs : d.span.Fits source)
    (h₁ : first.2.Fits source) (h₂ : second.2.Fits source) : d.Plain source :=
  ⟨.two h hs h₁ h₂, hr, hc⟩

end Plain

/-- A repetition stands in the source if both of its places do. -/
theorem fits_of_repetition {d : Diagnostic} {first second : Span}
    (h : d.repetition? = some (first, second)) (h₁ : first.Fits source)
    (h₂ : second.Fits source) : d.Fits source := by
  cases d <;> cases h <;> exact .two rfl h₂ h₁ h₂

/-- A property of what is plain, and of a repetition whose places stand to each other in a way. -/
structure Admits (source : List Char) (K : Span → Span → Prop) (P : Diagnostic → Prop) : Prop where
  plain : ∀ d : Diagnostic, d.Plain source → P d
  repeated : ∀ {d : Diagnostic} {first second : Span}, d.repetition? = some (first, second) →
    first.Fits source → second.Fits source → K first second → P d

end Diagnostic

/-- Whatever is within the one node stands in a way to whatever is within the other one. -/
def Related {α β : Type} [Node α] [Node β] (source : List Char) (K : Span → Span → Prop) (a : α)
    (b : β) : Prop :=
  ∀ s t : Span, s.Within source (Node.span a) → t.Within source (Node.span b) → K s t

namespace Checked

variable {α β : Type} {P Q : Diagnostic → Prop} {outer : Span}

/-- Everything that is reported has a property. -/
def All (P : Diagnostic → Prop) (c : Checked α) : Prop := ∀ d ∈ c.diagnostics, P d

namespace All

theorem pure (a : α) : All P (Pure.pure a : Checked α) := fun _ h => (List.not_mem_nil h).elim

theorem bind {c : Checked α} {f : α → Checked β} (hc : All P c) (hf : All P (f c.value)) :
    All P (c >>= f) := List.forall_mem_append.mpr ⟨hc, hf⟩

theorem report {d : Diagnostic} (hd : P d) : All P (report d) := List.forall_mem_singleton.mpr hd

/-- A report, and nothing after it. -/
theorem reported {d : Diagnostic} {f : Unit → Checked β} (hd : P d) (hf : All P (f ())) :
    All P (Checked.report d >>= f) := bind (report hd) hf

theorem reportIf {b : Bool} {d : Diagnostic} (hd : P d) : All P (reportIf b d) := by
  unfold Checked.reportIf
  split
  · exact report hd
  · exact pure ()

theorem each {f : α → Checked β} {as : List α} (h : ∀ a ∈ as, All P (f a)) :
    All P (each f as) := by
  intro d hd
  rw [diagnostics_each, List.mem_flatMap] at hd
  obtain ⟨a, ha, hd⟩ := hd
  exact h a ha d hd

theorem imp {c : Checked α} (hc : All P c) (h : ∀ d, P d → Q d) : All Q c :=
  fun d hd => h d (hc d hd)

end All

/-- Everything that is reported is plain. -/
abbrev Plain (source : List Char) : Checked α → Prop := All (Diagnostic.Plain source)

namespace Plain

/-! ### Values -/

theorem refuse {v : OptionValue} (expected : ValueClass) (hv : v.span.Fits source) :
    Plain source (v.refuse expected : Checked (Option α)) :=
  All.reported (.one rfl rfl hv) (All.pure none)

section

variable {v : OptionValue} (hv : v.span.Fits source)

include hv

theorem checkFlag : Plain source v.checkFlag := by
  unfold OptionValue.checkFlag
  split
  · split
    · exact All.pure _
    · split
      · exact All.pure _
      · exact refuse _ hv
  · exact refuse _ hv

theorem checkBytes : Plain source v.checkBytes := by
  unfold OptionValue.checkBytes
  split
  · exact All.pure _
  · exact refuse _ hv

theorem checkText : Plain source v.checkText := by
  unfold OptionValue.checkText
  refine All.bind (checkBytes hv) ?_
  split
  · split
    · exact All.pure _
    · exact All.reported (.one rfl rfl hv) (All.pure none)
  · exact All.pure _

theorem checkChoice (enum : String) (values : List (String × Nat)) :
    Plain source (v.checkChoice enum values) := by
  unfold OptionValue.checkChoice
  split
  · split
    · exact All.pure _
    · exact refuse _ hv
  · exact refuse _ hv

theorem customValue : Plain source v.custom := by
  unfold OptionValue.custom
  split
  · exact All.pure _
  · exact All.pure _
  · split
    · split
      · exact All.pure _
      · exact All.reported (.one rfl rfl hv) (All.pure none)
    · exact All.pure _
  · exact All.pure _
  · exact All.pure _
  · exact All.pure _

theorem checkInteger (t : IntegerType) : Plain source (v.checkInteger t) := by
  unfold OptionValue.checkInteger OptionValue.checkBetween
  split
  · split
    · exact All.pure _
    · exact All.reported (.one rfl rfl hv) (All.pure none)
  · exact refuse _ hv

theorem checkFloat : Plain source v.checkFloat := by
  unfold OptionValue.checkFloat
  split
  · exact All.pure _
  · exact All.pure _
  · split
    · exact All.pure _
    · split
      · exact All.pure _
      · exact refuse _ hv
  · exact refuse _ hv

theorem checkEnumValue (symbols : SymbolTable) (enum : FullName) :
    Plain source (v.checkEnumValue symbols enum) := by
  unfold OptionValue.checkEnumValue
  split
  · split
    · exact All.pure _
    · exact refuse _ hv
  · exact refuse _ hv

theorem checkScalar (s : ScalarType) : Plain source (v.checkScalar s) := by
  unfold OptionValue.checkScalar
  split
  · exact All.bind (checkInteger hv _) (All.pure _)
  · split
    · exact All.bind (checkFlag hv) (All.pure _)
    · exact checkText hv
    · exact All.bind (checkBytes hv) (All.pure _)
    · exact checkFloat hv

end

/-! ### Options -/

section Keys

variable {κ : Type} [OptionKey κ] {o : OptionSetting}

theorem apply (ho : Lies source outer o) (key : κ) : Plain source (o.apply key) := by
  have hv := ho.nested.value.fits
  unfold OptionSetting.apply
  split
  · exact All.bind (checkFlag hv) (All.pure _)
  · exact All.bind (checkText hv) (All.pure _)
  · exact All.bind (checkChoice hv _ _) (All.pure _)
  · exact All.reported (.one rfl rfl ho.nested.name.fits) (All.pure id)
  · exact All.pure _

end Keys

/-! ### Types -/

variable (ctx : Context) (scope : FullName)

theorem resolve {n : TypeName} (hn : n.span.Fits source) : Plain source (ctx.resolve scope n) := by
  unfold Context.resolve
  split
  · exact All.pure _
  · exact All.bind (All.reportIf (.one rfl rfl hn)) (All.pure none)

theorem fieldType {u : TypeUse} {s : Span} (hu : u.Nested source s) :
    Plain source (ctx.fieldType scope u) := by
  cases u with
  | scalar type => exact All.pure _
  | named n =>
      refine All.bind (resolve ctx scope hu.fits) ?_
      split
      · exact All.pure _
      · exact All.pure _
      · exact All.pure _

theorem messageType {n : TypeName} (hn : n.span.Fits source) :
    Plain source (ctx.messageType scope n) := by
  unfold Context.messageType
  refine All.bind (resolve ctx scope hn) ?_
  split
  · exact All.bind (All.reportIf (.one rfl rfl hn)) (All.pure _)
  · exact All.pure _

/-! ### Fields -/

theorem checkMessageNumber {n : IntLiteral} (hn : n.span.Fits source) :
    Plain source n.checkMessageNumber := by
  unfold IntLiteral.checkMessageNumber
  split
  · split
    · exact All.pure _
    · exact All.reported (.one rfl rfl hn) (All.pure none)
  · exact All.reported (.one rfl rfl hn) (All.pure none)

theorem checkFieldNumber {n : IntLiteral} (hn : n.span.Fits source) :
    Plain source n.checkFieldNumber := by
  unfold IntLiteral.checkFieldNumber
  refine All.bind (checkMessageNumber hn) ?_
  split
  · exact All.bind (All.reportIf (.one rfl rfl hn)) (All.pure _)
  · exact All.pure _

theorem checkEnumNumber {n : IntLiteral} (hn : n.span.Fits source) :
    Plain source n.checkEnumNumber := by
  unfold IntLiteral.checkEnumNumber
  split
  · exact All.pure _
  · exact All.reported (.one rfl rfl hn) (All.pure none)

theorem defaultValue (kind : FieldKind) (label : Label) (type : FieldType) {o : OptionSetting}
    (ho : Lies source outer o) : Plain source (ctx.defaultValue kind label type o) := by
  have hv := ho.nested.value.fits
  unfold Context.defaultValue
  split
  · exact All.reported (.one rfl rfl ho.fits) (All.pure none)
  · split
    · exact All.reported (.one rfl rfl ho.fits) (All.pure none)
    · split
      · exact checkScalar hv _
      · exact checkEnumValue hv _ _
      · exact All.pure _
      · exact All.pure _

variable {f : Field}

theorem checkLabel (hf : Lies source outer f) (dialect : Dialect) :
    Plain source (f.checkLabel dialect) := by
  unfold Field.checkLabel
  split
  · dsimp only
    split
    · rename_i l s hl
      exact All.reported (.one rfl rfl (hf.nested.label _ hl).fits) (All.pure _)
    · exact All.pure _
  · split
    · exact All.pure _
    · exact All.pure _
    · rename_i s hl
      exact All.bind (All.reportIf (.one rfl rfl (hf.nested.label _ hl).fits)) (All.pure _)
    · exact All.pure _

theorem checkOneofLabel (hf : Lies source outer f) : Plain source f.checkOneofLabel := by
  unfold Field.checkOneofLabel
  split
  · exact All.reported (.one rfl rfl hf.fits) (All.pure _)
  · split
    · rename_i l s hl
      exact All.reported (.one rfl rfl (hf.nested.label _ hl).fits) (All.pure _)
    · exact All.pure _

theorem checkExtensionLabel (hf : Lies source outer f) : Plain source f.checkExtensionLabel := by
  unfold Field.checkExtensionLabel
  split
  · exact All.reported (.one rfl rfl hf.fits) (All.pure _)
  · split
    · exact All.pure _
    · exact All.pure _
    · rename_i s hl
      exact All.reported (.one rfl rfl (hf.nested.label _ hl).fits) (All.pure _)
    · exact All.pure _

theorem mapEntry? (hf : Lies source outer f) : Plain source (ctx.mapEntry? scope f) := by
  have hkind : f.kind.Nested source := hf.nested.kind.nested
  unfold Context.mapEntry?
  split
  · exact All.pure _
  · rename_i key keySpan value valueSpan s heq
    rw [heq] at hkind
    obtain ⟨hkey, -, -, hvalue⟩ := hkind
    have hkeyType : Plain source (Context.keyType key keySpan) := by
      unfold Context.keyType
      split
      · split
        · exact All.pure _
        · exact All.reported (.one rfl rfl hkey.fits) (All.pure none)
      · exact All.reported (.one rfl rfl hkey.fits) (All.pure none)
    exact All.bind hkeyType (All.bind (fieldType ctx scope hvalue) (All.pure _))

variable {e : Enum}

theorem checkFirstValue (he : Lies source outer e) : Plain source (ctx.checkFirstValue e) := by
  unfold Context.checkFirstValue
  split
  · exact All.report (.one rfl rfl he.nested.name.fits)
  · rename_i first rest heq
    have h := he.nested.values first (heq ▸ .head _)
    exact All.reportIf (.one rfl rfl h.nested.number.fits)

/-! ### Ranges and reservations -/

/-- A checked range, and its place, stand in the source if the range does. -/
def RangeFits (source : List Char) (c : Checked CheckedRange) : Prop :=
  Plain source c ∧ c.value.span.Fits source

/-- Two bounds in the wrong order are reported where the range stands. -/
theorem rangeOrder {s : Span} (hs : s.Fits source) (start stop : Option Int) :
    RangeFits source (match start, stop with
      | some a, some b =>
        if b < a then do
          Checked.report (.invalidRange s)
          Pure.pure (⟨some a, none, s⟩ : CheckedRange)
        else Pure.pure ⟨some a, some b, s⟩
      | _, _ => Pure.pure ⟨start, stop, s⟩) := by
  split
  · split
    · exact ⟨All.reported (.one rfl rfl hs) (All.pure _), hs⟩
    · exact ⟨All.pure _, hs⟩
  · exact ⟨All.pure _, hs⟩

theorem rangeCheck {r : NumberRange} {number : IntLiteral → Checked (Option Int)}
    (hr : Lies source outer r) (hn : ∀ n : IntLiteral, n.span.Fits source → Plain source (number n))
    (greatest : Int) : RangeFits source (r.check number greatest) := by
  have hspan : r.span.Fits source := hr.fits
  have hstart := hn r.start hr.nested.start.fits
  have hstop : r.stop.Nested source r.span := hr.nested.stop
  have hend := rangeOrder hspan
  unfold NumberRange.check
  dsimp only
  cases heq : r.stop with
  | same => exact ⟨All.bind hstart (All.bind (All.pure _) (hend _ _).1), (hend _ _).2⟩
  | max s => exact ⟨All.bind hstart (All.bind (All.pure _) (hend _ _).1), (hend _ _).2⟩
  | _ n =>
      rw [heq] at hstop
      exact ⟨All.bind hstart (All.bind (hn n hstop.fits) (hend _ _).1), (hend _ _).2⟩

theorem checkMessageRange {r : NumberRange} (hr : Lies source outer r) :
    RangeFits source r.checkMessage := rangeCheck hr (fun _ => checkMessageNumber) _

theorem checkEnumRange {r : NumberRange} (hr : Lies source outer r) :
    RangeFits source r.checkEnum := rangeCheck hr (fun _ => checkEnumNumber) _

end Plain

end Checked

/-- What is reserved, and where: all of it stands in the source. -/
structure Reservations.Fits (source : List Char) (r : Reservations) : Prop where
  ranges : ∀ x ∈ r.ranges, x.span.Fits source
  names : ∀ n ∈ r.names, n.span.Fits source

namespace Checked.Plain

variable {outer : Span}

theorem reservedCheck (range : NumberRange → Checked CheckedRange) {rs : List Reserved}
    (hrange : ∀ {outer r}, Lies source outer r → RangeFits source (range r))
    (hrs : ∀ r ∈ rs, Lies source outer r) :
    Plain source (Reserved.check range rs) ∧ (Reserved.check range rs).value.Fits source := by
  have hpart : ∀ r ∈ rs, r.kind.Nested source r.span := fun r hr => (hrs r hr).nested
  unfold Reserved.check
  refine ⟨All.bind (All.each fun r hr => ?_) (All.pure _), ?_, ?_⟩
  · have h := hpart r hr
    split
    · rename_i ranges heq
      rw [heq] at h
      exact All.bind (All.each fun x hx => (hrange (h x hx)).1) (All.pure _)
    · exact All.pure _
  · intro x hx
    simp only [value_bind, value_pure, value_each, List.mem_flatMap, List.mem_map] at hx
    obtain ⟨part, ⟨r, hr, rfl⟩, hx⟩ := hx
    have h := hpart r hr
    split at hx
    · rename_i ranges heq
      rw [heq] at h
      simp only [value_bind, value_pure, value_each, List.mem_map] at hx
      obtain ⟨y, hy, rfl⟩ := hx
      exact (hrange (h y hy)).2
    · exact (List.not_mem_nil hx).elim
  · intro n hn
    simp only [value_bind, value_pure, value_each, List.mem_flatMap, List.mem_map] at hn
    obtain ⟨part, ⟨r, hr, rfl⟩, hn⟩ := hn
    have h := hpart r hr
    split at hn
    · exact (List.not_mem_nil hn).elim
    · rename_i names heq
      rw [heq] at h
      exact (h n hn).fits

/-- A report about what was found, if anything was. -/
theorem found (x? : Option CheckedRange) (d : CheckedRange → Diagnostic)
    (h : ∀ x, x? = some x → (d x).Plain source) :
    Plain source (match x? with
      | some x => Checked.report (d x)
      | none => Pure.pure ()) := by
  cases x? with
  | none => exact All.pure _
  | some x => exact All.report (h x rfl)

theorem checkUnreserved {reserved extensions : List CheckedRange} {s : Span} (number : Int)
    (hr : ∀ x ∈ reserved, x.span.Fits source) (he : ∀ x ∈ extensions, x.span.Fits source)
    (hs : s.Fits source) : Plain source (checkUnreserved reserved extensions number s) := by
  have hlast := found (extensions.find? (·.contains number))
    (fun x => .fieldNumberInExtensionRange number s x.span)
    (fun x hx => .two rfl rfl rfl hs hs (he x (List.mem_of_find?_eq_some hx)))
  unfold ProtoSchema.checkUnreserved
  dsimp only
  split
  · rename_i x hx
    exact All.reported (.two rfl rfl rfl hs hs (hr x (List.mem_of_find?_eq_some hx))) hlast
  · exact All.bind (All.pure _) hlast

theorem checkUnreservedName {reserved : List Ident} {name : Ident}
    (hr : ∀ n ∈ reserved, n.span.Fits source) (hn : name.span.Fits source) :
    Plain source (checkUnreservedName reserved name) := by
  unfold ProtoSchema.checkUnreservedName
  split
  · rename_i x hx
    exact All.report (.two rfl rfl rfl hn hn (hr x (List.mem_of_find?_eq_some hx)))
  · exact All.pure _

end Checked.Plain

/-! ### Options of a declaration -/

/-- What a list of pairs gives for a key is in the list. -/
theorem mem_of_lookup {α β : Type} [BEq α] [LawfulBEq α] {a : α} {b : β} {xs : List (α × β)}
    (h : xs.lookup a = some b) : (a, b) ∈ xs := by
  obtain ⟨l₁, l₂, rfl, -⟩ := List.lookup_eq_some_iff.mp h
  exact List.mem_append_right _ (.head _)

section

variable {κ : Type} [OptionKey κ]

theorem mem_deferred_apply {o : OptionSetting} {key : κ} {r : OptionReading κ}
    {p : κ × OptionSetting} (h : p ∈ ((o.apply key).value r).deferred) :
    p.2 = o ∨ p ∈ r.deferred := by
  unfold OptionSetting.apply at h
  split at h
  · exact .inr h
  · exact .inr h
  · exact .inr h
  · exact .inr h
  · rcases List.mem_cons.mp h with rfl | h
    · exact .inl rfl
    · exact .inr h

/-- What is left to be checked later was among the options. -/
theorem mem_of_mem_deferred [DecidableEq κ] {os : List OptionSetting} {p : κ × OptionSetting} :
    ∀ {seen : List (κ × Span)}, p ∈ (readOptionsAfter seen os).value.deferred → p.2 ∈ os := by
  induction os with
  | nil => exact fun h => (List.not_mem_nil h).elim
  | cons o os ih =>
      intro seen h
      rw [readOptionsAfter] at h
      split at h
      · split at h
        · exact .tail _ (ih h)
        · rcases mem_deferred_apply h with heq | h
          · exact heq ▸ .head _
          · exact .tail _ (ih h)
      · exact .tail _ (ih h)

/-- The word that names a known option is a part of its name. -/
theorem lies_known {o : OptionSetting} {outer : Span} {key : κ} {name : Ident}
    (ho : Lies source outer o) (h : o.known? κ = some (key, name)) :
    Lies source o.nameSpan (OptionNamePart.ident name) := by
  unfold OptionSetting.known? OptionSetting.simpleName? at h
  split at h
  · rename_i n hn
    split at hn
    · rename_i first rest hfirst hrest
      obtain rfl := Option.some.inj hn
      obtain ⟨k, -, heq⟩ := Option.map_eq_some_iff.mp h
      obtain ⟨-, rfl⟩ := Prod.mk.inj heq
      have hp := ho.nested.parts o.first (.head _)
      rwa [hfirst] at hp
    · cases hn
  · cases h

end

section

variable {outer : Span}

/-- The options in brackets lie within the list, if there is one. -/
theorem lies_settingsOf {list : Option OptionList} (h : ∀ l ∈ list, Lies source outer l) :
    ∀ o ∈ OptionList.settingsOf list, Lies source ⟨0, Utf8.size source⟩ o := by
  cases list with
  | none => exact fun o ho => (List.not_mem_nil ho).elim
  | some l => exact fun o ho => ((h l rfl).nested o ho).whole

theorem lies_settings {os : List OptionStatement} (h : ∀ o ∈ os, Lies source outer o) :
    ∀ o ∈ Context.settings os, Lies source ⟨0, Utf8.size source⟩ o := by
  intro o ho
  obtain ⟨p, hp, rfl⟩ := List.mem_map.mp ho
  exact (h p hp).nested.whole

end

/-! ### Walks that compare

Options and numbers are kept with their places when they are met for the first time. -/

namespace Checked.All

variable {P : Diagnostic → Prop} {K : Span → Span → Prop} {outer : Span}
  (h : Diagnostic.Admits source K P)

include h

section

variable {κ : Type} [OptionKey κ] [DecidableEq κ]

theorem readOptionsAfter {os : List OptionSetting} (hos : ∀ o ∈ os, Lies source outer o)
    (hline : os.Pairwise (Related source K)) : ∀ {seen : List (κ × Span)},
      (∀ p ∈ seen, p.2.Fits source ∧
        ∀ o ∈ os, ∀ word : Span, word.Within source o.span → K p.2 word) →
      All P (readOptionsAfter seen os) := by
  induction os with
  | nil => exact fun _ => pure _
  | cons o os ih =>
      intro seen hseen
      obtain ⟨ho, hos⟩ := List.forall_mem_cons.mp hos
      obtain ⟨hfirst, hline⟩ := List.pairwise_cons.mp hline
      have hlater : ∀ p ∈ seen, p.2.Fits source ∧
          ∀ o ∈ os, ∀ word : Span, word.Within source o.span → K p.2 word :=
        fun p hp => ⟨(hseen p hp).1, fun o' ho' => (hseen p hp).2 o' (.tail _ ho')⟩
      rw [ProtoSchema.readOptionsAfter]
      split
      · rename_i key name hknown
        have hname : name.span.Within source o.span :=
          (lies_known ho hknown).within.mono ho.nested.name.after ho.nested.name.before
        split
        · rename_i earlier hearlier
          obtain ⟨hfits, hkept⟩ := hseen _ (mem_of_lookup hearlier)
          exact reported (h.repeated rfl hfits hname.fits (hkept o (.head _) _ hname))
            (ih hos hline hlater)
        · refine bind ((Plain.apply ho key).imp h.plain) (bind (ih hos hline ?_) (pure _))
          refine List.forall_mem_cons.mpr ⟨⟨hname.fits, fun o' ho' word hword => ?_⟩, hlater⟩
          exact hfirst o' ho' _ _ hname hword
      · have hvalue := (Plain.customValue ho.nested.value.fits).imp h.plain
        exact bind (bind hvalue (pure _)) (bind (ih hos hline hlater) (pure _))

theorem optionsOf {os : List OptionSetting} (hos : ∀ o ∈ os, Lies source outer o)
    (hline : os.Pairwise (Related source K)) :
    All P (optionsOf os : Checked (Option (Options κ))) :=
  bind (readOptionsAfter h hos hline fun _ hp => (List.not_mem_nil hp).elim) (pure _)

end

theorem fieldOptions {f : Field} (hf : Lies source outer f)
    (hline : (OptionList.settingsOf f.options).Pairwise (Related source K)) :
    All P (Context.fieldOptions f.options) :=
  bind (readOptionsAfter h (lies_settingsOf hf.nested.options) hline
    fun _ hp => (List.not_mem_nil hp).elim) (pure _)

theorem checkFieldNumbers {reservations : Reservations} {extensions : List CheckedRange}
    (hr : reservations.Fits source) (he : ∀ x ∈ extensions, x.span.Fits source)
    {fs : List (Option Int × Field)} (hfs : ∀ f ∈ fs.map Prod.snd, Lies source outer f)
    (hline : (fs.map Prod.snd).Pairwise (Related source K)) : ∀ {seen : List (Int × Span)},
      (∀ p ∈ seen, p.2.Fits source ∧
        ∀ f ∈ fs.map Prod.snd, ∀ s : Span, s.Within source f.span → K p.2 s) →
      All P (checkFieldNumbers reservations extensions seen fs) := by
  -- On the fields; what carries it is that the numbers seen stand before all fields to come.
  induction fs with
  | nil => exact fun _ => pure _
  | cons p fs ih =>
      intro seen hseen
      obtain ⟨number, f⟩ := p
      rw [List.map_cons] at hfs hline hseen
      obtain ⟨hf, hrest⟩ := List.forall_mem_cons.mp hfs
      obtain ⟨hfirst, hafter⟩ := List.pairwise_cons.mp hline
      have hlater : ∀ p ∈ seen, p.2.Fits source ∧
          ∀ f ∈ fs.map Prod.snd, ∀ s : Span, s.Within source f.span → K p.2 s :=
        fun p hp => ⟨(hseen p hp).1, fun g hg => (hseen p hp).2 g (.tail _ hg)⟩
      have hname := (Plain.checkUnreservedName hr.names hf.nested.name.fits).imp h.plain
      cases number with
      | none => exact bind hname (ih hrest hafter hlater)
      | some n =>
          have hnumber : f.number.span.Within source f.span := hf.nested.number.within
          have hunreserved := (Plain.checkUnreserved n hr.ranges he hnumber.fits).imp h.plain
          rw [ProtoSchema.checkFieldNumbers]
          dsimp only
          cases hlookup : seen.lookup n with
          | none =>
              refine bind hunreserved (bind hname (ih hrest hafter ?_))
              refine List.forall_mem_cons.mpr ⟨⟨hnumber.fits, fun g hg s hs => ?_⟩, hlater⟩
              exact hfirst g hg _ _ hnumber hs
          | some s =>
              obtain ⟨hfits, hkept⟩ := hseen _ (mem_of_lookup hlookup)
              exact reported (h.repeated rfl hfits hnumber.fits (hkept f (.head _) _ hnumber))
                (bind hunreserved (bind hname (ih hrest hafter hlater)))

end Checked.All

/-! ### Declarations -/

/-! An item of a message is the node that it is made of. -/

namespace Lies

variable {outer : Span}

theorem of_field {f : Field} (h : Lies source outer (MessageItem.field f)) :
    Lies source outer f := ⟨h.within, h.nested⟩

theorem of_oneof {o : Oneof} (h : Lies source outer (MessageItem.oneof o)) :
    Lies source outer o := ⟨h.within, h.nested⟩

theorem of_message {m : Message} (h : Lies source outer (MessageItem.message m)) :
    Lies source outer m := ⟨h.within, h.nested⟩

theorem of_enum {e : Enum} (h : Lies source outer (MessageItem.enum e)) :
    Lies source outer e := ⟨h.within, h.nested⟩

theorem of_extend {e : Extend} (h : Lies source outer (MessageItem.extend e)) :
    Lies source outer e := ⟨h.within, h.nested⟩

/-- The parts of a message lie within it. -/
theorem parts_of_message {m : Message} (h : Lies source outer m) :
    Lies source m.span m.name ∧ (∀ i ∈ m.items, Lies source m.span i) ∧
      (∀ o ∈ m.options, Lies source m.span o) ∧ (∀ r ∈ m.reserved, Lies source m.span r) ∧
      ∀ e ∈ m.extensions, Lies source m.span e := by
  obtain ⟨name, items, options, reserved, extensions, span⟩ := m
  obtain ⟨hname, hitems, hrest⟩ := h.nested
  exact ⟨hname, (MessageItem.allLie_iff span items).mp hitems, hrest⟩

end Lies

/-- The fields that an item contributes to its message. -/
def MessageItem.fields : MessageItem → List Field
  | .field f => [f]
  | .oneof o => o.fields
  | _ => []

/-- The fields that an item contributes lie within it. -/
theorem lies_field {i : MessageItem} {f : Field} {outer : Span} (hi : Lies source outer i) (hf : f ∈ i.fields) :
    Lies source (Node.span i) f := by
  cases i with
  | field g =>
      obtain rfl := List.mem_singleton.mp hf
      exact hi.of_field.self
  | oneof o => exact hi.of_oneof.nested.fields f hf
  | message m => cases hf
  | enum e => cases hf
  | extend e => cases hf

theorem MessageItem.fields_membersFrom (items : List MessageItem) : ∀ place : Nat,
    (membersFrom place items).map Member.field = items.flatMap fields := by
  induction items with
  | nil => exact fun _ => rfl
  | cons i is ih =>
      intro place
      rw [membersFrom, List.map_append, ih, List.flatMap_cons]
      cases i <;> simp [members, fields, Function.comp_def]

theorem Context.fst_placed (ctx : Context) (scope : FullName) (xs : List Member) : ∀ place : Nat,
    (ctx.placed scope place xs).map Prod.fst = xs.map Member.field := by
  induction xs with
  | nil => exact fun _ => rfl
  | cons x xs ih =>
      intro place
      rw [placed]
      split <;> rw [List.map_cons, List.map_cons, ih]

/-- Fields of messages are checked in the order of the items that contribute them. -/
theorem Context.fields_messageItems (ctx : Context) (scope : FullName) (items : List MessageItem)
    (place next : Nat) :
    (ctx.messageItems scope place next items).value.fields.map Prod.fst =
      items.flatMap MessageItem.fields := by
  rw [(ctx.parts_messageItems scope items place next).1, fst_placed,
    MessageItem.fields_membersFrom]

namespace Checked.All

variable {P : Diagnostic → Prop} {K : Span → Span → Prop} {outer : Span} {f : Field} {e : Enum}
  (ctx : Context) (scope : FullName) (h : Diagnostic.Admits source K P)

section

include h

theorem field (hf : Lies source outer f) (label : Label)
    (hoptions : (OptionList.settingsOf f.options).Pairwise (Related source K)) :
    All P (ctx.field scope f label) := by
  have hkind : f.kind.Nested source := hf.nested.kind.nested
  rw [field_eq]
  refine bind ((Plain.checkFieldNumber hf.nested.number.fits).imp h.plain) (bind ?_
    (bind (fieldOptions h hf hoptions) (bind ?_ (pure _))))
  · unfold typeOf
    split
    · rename_i type s heq
      rw [heq] at hkind
      exact (Plain.fieldType ctx scope hkind).imp h.plain
    · exact pure _
  · unfold defaultOf
    split
    · rename_i o ho
      have hmem := mem_of_mem_deferred (mem_of_lookup ho)
      exact (Plain.defaultValue ctx _ _ _ (lies_settingsOf hf.nested.options o hmem)).imp h.plain
    · exact pure _

theorem extensions {e : Extend} (he : Lies source outer e)
    (hoptions : ∀ f ∈ e.fields, (OptionList.settingsOf f.options).Pairwise (Related source K)) :
    All P (ctx.extensions scope e) := by
  unfold Context.extensions
  refine bind ((Plain.messageType ctx scope he.nested.extendee.fits).imp h.plain)
    (each fun f hf => ?_)
  have hlies := he.nested.fields f hf
  refine bind ((Plain.checkExtensionLabel hlies).imp h.plain) (bind ?_ (pure _))
  exact field ctx scope h hlies _ (hoptions f hf)

theorem enumValue {v : EnumValue} (hv : Lies source outer v)
    (hoptions : (OptionList.settingsOf v.options).Pairwise (Related source K)) :
    All P (Context.enumValue v) :=
  bind ((Plain.checkEnumNumber hv.nested.number.fits).imp h.plain)
    (bind (optionsOf h (lies_settingsOf hv.nested.options) hoptions) (pure _))

theorem enum (he : Lies source outer e)
    (hvalues : ∀ v ∈ e.values, (OptionList.settingsOf v.options).Pairwise (Related source K))
    (hoptions : (Context.settings e.options).Pairwise (Related source K)) :
    All P (ctx.enum e) := by
  have hfirst := Plain.checkFirstValue ctx he
  obtain ⟨hreserved, hr⟩ :=
    Plain.reservedCheck NumberRange.checkEnum Plain.checkEnumRange he.nested.reserved
  have hvalues := fun v hv => enumValue h (he.nested.values v hv) (hvalues v hv)
  unfold Context.enum
  refine bind (hfirst.imp h.plain) (bind (each hvalues) (bind (hreserved.imp h.plain)
    (bind (each ?_) (bind (optionsOf h (lies_settings he.nested.options) hoptions) (pure _)))))
  rintro ⟨d, v⟩ hdv
  have hv := he.nested.values v (List.of_mem_zip hdv).2
  have hname := (Plain.checkUnreservedName hr.names hv.nested.name.fits).imp h.plain
  dsimp only
  split
  · rename_i n _
    have hnumber := Plain.checkUnreserved n hr.ranges (fun _ h => (List.not_mem_nil h).elim)
      hv.nested.number.fits
    exact bind (hnumber.imp h.plain) hname
  · exact bind (pure _) hname

theorem method {m : Method} (hm : Lies source outer m)
    (hoptions : (Context.settings m.options).Pairwise (Related source K)) :
    All P (ctx.method scope m) :=
  bind ((Plain.messageType ctx scope hm.nested.input.fits).imp h.plain)
    (bind ((Plain.messageType ctx scope hm.nested.output.fits).imp h.plain)
      (bind (optionsOf h (lies_settings hm.nested.options) hoptions) (pure _)))

theorem service {s : Service} (hs : Lies source outer s)
    (hmethods : ∀ m ∈ s.methods, (Context.settings m.options).Pairwise (Related source K))
    (hoptions : (Context.settings s.options).Pairwise (Related source K)) :
    All P (ctx.service scope s) :=
  bind (each fun m hm => method ctx scope h (hs.nested.methods m hm) (hmethods m hm))
    (bind (optionsOf h (lies_settings hs.nested.options) hoptions) (pure _))

/-! ### Messages -/

theorem fieldParts (index : Nat) (hf : Lies source outer f)
    (hoptions : (OptionList.settingsOf f.options).Pairwise (Related source K)) :
    All P (ctx.fieldParts scope index f) := by
  have hentry := (Plain.mapEntry? ctx scope hf).imp h.plain
  have hlabel := (Plain.checkLabel hf ctx.dialect).imp h.plain
  unfold Context.fieldParts
  refine bind hentry (bind hlabel (bind (field ctx scope h hf _ hoptions) ?_))
  dsimp only
  split <;> exact pure _

theorem oneofParts (index : Nat) {o : Oneof} (ho : Lies source outer o)
    (hfields : ∀ f ∈ o.fields, (OptionList.settingsOf f.options).Pairwise (Related source K))
    (hoptions : (Context.settings o.options).Pairwise (Related source K)) :
    All P (ctx.oneofParts scope index o) := by
  unfold Context.oneofParts
  refine bind (reportIf (h.plain _ (.one rfl rfl ho.nested.name.fits)))
    (bind (optionsOf h (lies_settings ho.nested.options) hoptions)
      (bind (each fun f hf => ?_) (pure _)))
  have hlies := ho.nested.fields f hf
  refine bind ((Plain.checkOneofLabel hlies).imp h.plain) (bind ?_ (pure _))
  exact field ctx scope h hlies _ (hfields f hf)

theorem extensionRanges {e : Extensions} (he : Lies source outer e)
    (hoptions : (OptionList.settingsOf e.options).Pairwise (Related source K)) :
    All P (Context.extensionRanges e) :=
  bind (optionsOf h (lies_settingsOf he.nested.options) hoptions) (bind (each fun r hr =>
    (Plain.checkMessageRange (he.nested.ranges r hr)).1.imp h.plain) (pure _))

end

theorem fits_extensionRanges {e : Extensions} (he : Lies source outer e) :
    ∀ r ∈ (Context.extensionRanges e).value, r.1.span.Fits source := by
  intro r hr
  unfold Context.extensionRanges at hr
  simp only [value_bind, value_pure, value_each, List.mem_map] at hr
  obtain ⟨_, ⟨x, hx, rfl⟩, rfl⟩ := hr
  exact (Plain.checkMessageRange (he.nested.ranges x hx)).2

include h in
/-- The last step of a message compares the numbers of its fields. -/
theorem closing {m : Message} (hm : Lies source outer m)
    (hextensions : ∀ e ∈ m.extensions,
      (OptionList.settingsOf e.options).Pairwise (Related source K))
    (hfields : (m.items.flatMap MessageItem.fields).Pairwise (Related source K))
    (hoptions : (Context.settings m.options).Pairwise (Related source K)) :
    All P (ctx.closing scope m) := by
  obtain ⟨-, hitems, ho, hr, he⟩ := hm.parts_of_message
  have hall : ∀ f ∈ m.items.flatMap MessageItem.fields, Lies source m.span f := by
    intro f hf
    obtain ⟨i, hi, hf⟩ := List.mem_flatMap.mp hf
    have hlies := hitems i hi
    exact (lies_field hlies hf).mono hlies.within.after hlies.within.before
  obtain ⟨hreserved, hreservations⟩ :=
    Plain.reservedCheck NumberRange.checkMessage Plain.checkMessageRange hr
  unfold Context.closing Context.close
  refine bind (hreserved.imp h.plain) (bind (each fun e hmem =>
    extensionRanges h (he e hmem) (hextensions e hmem)) (bind ?_
      (bind (optionsOf h (lies_settings ho) hoptions) (pure _))))
  generalize hparts : (ctx.messageItems (scope.child m.name.text) 0
    (m.items.countP Context.isOneof) m.items).value.fields = parts
  have hsnd : (parts.map fun p => (p.2.number, p.1)).map Prod.snd =
      m.items.flatMap MessageItem.fields := by
    rw [← ctx.fields_messageItems, hparts, List.map_map]
    rfl
  refine checkFieldNumbers h hreservations (fun x hx => ?_) (hsnd ▸ hall) (hsnd ▸ hfields)
    fun _ hp => (List.not_mem_nil hp).elim
  simp only [value_each, List.mem_map, List.mem_flatten] at hx
  obtain ⟨r, ⟨rs, ⟨e, hmem, rfl⟩, hr⟩, rfl⟩ := hx
  exact fits_extensionRanges (he e hmem) r hr

/-! ### Files -/

theorem of_on {α : Type} {c : Checked α} (hc : All P c) {t : Topic} {d : Diagnostic}
    (hd : d ∈ c.on t) : P d := hc d (List.mem_of_mem_filter hd)

/-- What a file reports is reported of something that it holds. -/
theorem describe {file : File} {symbols : SymbolTable} (name : String)
    (hfield : ∀ scope f, file.Holds scope (.field f) →
      All P ((file.context symbols).fieldParts scope 0 f))
    (honeof : ∀ scope o, file.Holds scope (.oneof o) →
      All P ((file.context symbols).oneofParts scope 0 o))
    (henum : ∀ scope e, file.Holds scope (.enum e) → All P ((file.context symbols).enum e))
    (hextend : ∀ scope e, file.Holds scope (.extend e) →
      All P ((file.context symbols).extensions scope e))
    (hmessage : ∀ scope m, file.Holds scope (.message m) →
      All P ((file.context symbols).closing scope m))
    (hservice : ∀ s ∈ file.services,
      All P ((file.context symbols).service (Package.scope file.package) s))
    (hoptions : All P (ProtoSchema.optionsOf (Context.settings file.options) :
      Checked (Option (Options FileOption)))) : All P (file.describe name symbols) := by
  intro d hd
  have hon : d ∈ (file.describe name symbols).on d.topic :=
    List.mem_filter.mpr ⟨hd, decide_eq_true rfl⟩
  rw [(file.reports_describe name symbols d.topic).mem_iff] at hon
  simp only [List.mem_append, List.mem_flatMap] at hon
  -- A report is about one of the nodes that the file holds, or about its own options.
  rcases hon with ⟨⟨scope, m⟩, hm, hown⟩ | ⟨e, he, hd⟩ | ⟨e, he, hd⟩ | ⟨s, hs, hd⟩ | hd
  · have hm := File.mem_heldMessages.mp hm
    rcases List.mem_append.mp hown with hitem | hclosing
    · obtain ⟨i, hi, hd⟩ := List.mem_flatMap.mp hitem
      have hi := File.Holds.within hm hi
      cases i with
      | message _ => cases hd
      | field f => exact (hfield _ f hi).of_on hd
      | oneof o => exact (honeof _ o hi).of_on hd
      | enum e => exact (henum _ e hi).of_on hd
      | extend e => exact (hextend _ e hi).of_on hd
    · exact (hmessage scope m hm).of_on hclosing
  · exact (henum _ e (.enum he)).of_on hd
  · exact (hextend _ e (.extend he)).of_on hd
  · exact (hservice s hs).of_on hd
  · exact hoptions.of_on hd

end Checked.All

/-- What a file holds lies in the source. -/
theorem File.LiesIn.holds {file : File} (hf : file.LiesIn source) {scope : FullName}
    {item : MessageItem} (h : file.Holds scope item) :
    Lies source ⟨0, Utf8.size source⟩ item := by
  induction h with
  | @message m hm => exact ⟨(hf.messages m hm).within, (hf.messages m hm).nested⟩
  | @enum e he => exact ⟨(hf.enums e he).within, (hf.enums e he).nested⟩
  | @extend e he => exact ⟨(hf.extendBlocks e he).within, (hf.extendBlocks e he).nested⟩
  | @within scope m item _ hitem ih =>
      obtain ⟨-, hitems, -⟩ := ih.of_message.parts_of_message
      exact (hitems item hitem).whole

end ProtoSchema
