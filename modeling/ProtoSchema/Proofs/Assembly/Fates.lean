/-
What becomes of each option of a list.

Every option has one fate.  It names a known option, as the first one of its list to do so: then
that option is set, or the value is refused, or it is left to be checked with the declaration.  It
names one that was named before: then this is reported, with the place where it was named first,
and nothing else comes of it.  Or it names none that is known: then it is kept as it was written.

Fates are said here without regard to how options are read, over the table of the options that a
declaration knows.  Reading keeps a table of its own, of the names that it has met, and all there
is to know about that one is that it has the first place of each name (`TracksNames`).  So
everything that a list amounts to is what its fates amount to (`exists_fates`), in the order of the
source: the options that are set, those that are kept, and what is reported.
-/
import Mathlib.Data.List.Forall2
import ProtoSchema.Proofs.Assembly.KnownOptions
import ProtoSchema.Proofs.Assembly.SignedWords
import ProtoSchema.Proofs.Rendering.Utf8

namespace ProtoSchema

open Checked

/-! ### Options -/

/-- Options with some settings and some others, and none if there are neither. -/
def HoldsOptions {κ : Type} (options : Option (Options κ)) (settings : List (κ × SettingValue))
    (custom : List CustomOption) : Prop :=
  match options with
  | some o => o.settings = settings ∧ o.custom = custom ∧ (settings ≠ [] ∨ custom ≠ [])
  | none => settings = [] ∧ custom = []

theorem holdsOptions_nonempty? {κ : Type} (settings : List (κ × SettingValue))
    (custom : List CustomOption) :
    HoldsOptions (Options.nonempty? ⟨settings, custom⟩) settings custom := by
  unfold Options.nonempty?
  cases settings with
  | nil =>
      cases custom with
      | nil => exact ⟨rfl, rfl⟩
      | cons c cs => exact ⟨rfl, rfl, .inr (List.cons_ne_nil c cs)⟩
  | cons s ss => exact ⟨rfl, rfl, .inl (List.cons_ne_nil s ss)⟩

/-- An option that is one plain word. -/
def OptionSetting.Names (o : OptionSetting) (word : String) : Prop :=
  ∃ name, o.simpleName? = some name ∧ name.text = word

/-! ### Values -/

/-- A value has the form that a known option needs, and is read as something. -/
inductive OptionForm.Reads : OptionForm → OptionValue → SettingValue → Prop
  | yes {name : Ident} {span : Span} : name.text = "true" →
      Reads .flag (.ident false name span) (.flag true)
  | no {name : Ident} {span : Span} : name.text = "false" →
      Reads .flag (.ident false name span) (.flag false)
  | text {s : StringLiteral} {cs : List Char} : Utf8.encode cs = s.bytes →
      Reads .text (.string s) (.text (String.ofList cs))
  | choice {enum : String} {values : List (String × Nat)} {name : Ident} {span : Span} {n : Nat} :
      values.lookup name.text = some n →
        Reads (.choice enum values) (.ident false name span) (.choice n)

/-- What a value of a form is called, if values have that form. -/
def OptionForm.class? : OptionForm → Option ValueClass
  | flag => some .boolean
  | text => some .string
  | choice enum _ => some (.enumValue enum)
  | refused | deferred => none

/-- What is reported of an option that sets nothing, though it should have a value of some form. -/
inductive OptionForm.Refuses (form : OptionForm) (o : OptionSetting) : Diagnostic → Prop
  | mapEntry : form = .refused → Refuses form o (.mapEntryOptionSet o.nameSpan)
  | notUtf8 {s : StringLiteral} : form = .text → o.value = .string s →
      (∀ cs, Utf8.encode cs ≠ s.bytes) → Refuses form o (.invalidUtf8String s.span)
  | invalid {expected : ValueClass} : form.class? = some expected →
      (∀ v, ¬form.Reads o.value v) → (form = .text → ∀ s, o.value ≠ .string s) →
        Refuses form o (.valueInvalidType expected o.value.text o.value.span)

/-- How a value is kept by an option that is not known, and what is reported of it. -/
inductive OptionValue.KeptAs : OptionValue → Option CustomValue → List Diagnostic → Prop
  | word {name : Ident} {span : Span} :
      KeptAs (.ident false name span) (some (.identifier name.text)) []
  | infinity {name : Ident} {span : Span} : name.text = "inf" →
      KeptAs (.ident true name span) (some (.double Binary64.infinity.neg)) []
  | notNumber {name : Ident} {span : Span} : name.text ≠ "inf" →
      KeptAs (.ident true name span) (some (.double Binary64.nan)) []
  | positive {n : IntLiteral} : n.negative = false →
      KeptAs (.int n) (some (.positive n.magnitude.toNat)) []
  | negative {n : IntLiteral} : n.negative = true → -9223372036854775808 ≤ n.value →
      KeptAs (.int n) (some (.negative n.value)) []
  /-- There is no room for less than the least signed number. -/
  | tooSmall {n : IntLiteral} : n.negative = true → n.value < -9223372036854775808 →
      KeptAs (.int n) none [.integerValueOutOfRange .signed64 n.value n.span]
  | float {x : Binary64} {span : Span} : KeptAs (.float x span) (some (.double x)) []
  | string {s : StringLiteral} : KeptAs (.string s) (some (.string s.bytes)) []
  | aggregate {text : String} {span : Span} :
      KeptAs (.aggregate text span) (some (.aggregate text)) []

/-- How a part of a name is kept: an extension without its parentheses. -/
inductive OptionNamePart.KeptAs : OptionNamePart → CustomNamePart → Prop
  | word {name : Ident} : KeptAs (.ident name) ⟨name.text, false⟩
  | extension {name : TypeName} {span : Span} : KeptAs (.extension name span) ⟨name.text, true⟩

/-! ### Fates -/

section Keys

variable {κ : Type}

/-- What becomes of an option. -/
inductive OptionFate (κ : Type) where
  | sets (key : κ) (value : SettingValue)
  | refused (d : Diagnostic)
  | repeated (d : Diagnostic)
  /-- The option is checked with its declaration. -/
  | deferred (key : κ) (o : OptionSetting)
  | kept (option : CustomOption) (found : List Diagnostic)

namespace OptionFate

def setting? : OptionFate κ → Option (κ × SettingValue)
  | sets key value => some (key, value)
  | _ => none

def deferred? : OptionFate κ → Option (κ × OptionSetting)
  | deferred key o => some (key, o)
  | _ => none

def kept? : OptionFate κ → Option CustomOption
  | kept option _ => some option
  | _ => none

/-- What a fate adds to what the options behind it amount to. -/
def add (fate : OptionFate κ) (r : OptionReading κ) : OptionReading κ :=
  ⟨fate.setting?.toList ++ r.settings, fate.deferred?.toList ++ r.deferred,
    fate.kept?.toList ++ r.custom⟩

/-- What is reported of an option. -/
def diagnostics : OptionFate κ → List Diagnostic
  | sets _ _ | deferred _ _ => []
  | refused d | repeated d => [d]
  | kept _ found => found

end OptionFate

/-- The fate of an option, behind others of its list, where some options are known. -/
inductive OptionSetting.HasFate (known : List (KnownOption κ)) (before : List OptionSetting)
    (o : OptionSetting) : OptionFate κ → Prop
  | sets {word : String} {key : κ} {form : OptionForm} {value : SettingValue} :
      ⟨word, key, form⟩ ∈ known → o.Names word → (∀ p ∈ before, ¬p.Names word) →
        form.Reads o.value value → HasFate known before o (.sets key value)
  | refused {word : String} {key : κ} {form : OptionForm} {d : Diagnostic} :
      ⟨word, key, form⟩ ∈ known → o.Names word → (∀ p ∈ before, ¬p.Names word) →
        form.Refuses o d → HasFate known before o (.refused d)
  | deferred {word : String} {key : κ} : ⟨word, key, .deferred⟩ ∈ known → o.Names word →
      (∀ p ∈ before, ¬p.Names word) → HasFate known before o (.deferred key o)
  /-- The first option of that name is what a later one repeats. -/
  | repeated {word : String} {key : κ} {form : OptionForm} {front behind : List OptionSetting}
      {first : OptionSetting} {earlier name : Ident} : ⟨word, key, form⟩ ∈ known →
      before = front ++ first :: behind → (∀ p ∈ front, ¬p.Names word) →
      first.simpleName? = some earlier → earlier.text = word →
      o.simpleName? = some name → name.text = word →
        HasFate known before o (.repeated (.duplicateOption word earlier.span name.span))
  | kept {option : CustomOption} {found : List Diagnostic} :
      (∀ entry ∈ known, ¬o.Names entry.word) →
      List.Forall₂ OptionNamePart.KeptAs o.parts option.name →
      o.value.KeptAs option.value found → HasFate known before o (.kept option found)

/-- The fates of options, one for each, behind others of their list. -/
inductive HaveFates (known : List (KnownOption κ)) :
    (before os : List OptionSetting) → List (OptionFate κ) → Prop
  | nil {before : List OptionSetting} : HaveFates known before [] []
  | cons {before os : List OptionSetting} {o : OptionSetting} {fate : OptionFate κ}
      {fates : List (OptionFate κ)} : o.HasFate known before fate →
      HaveFates known (before ++ [o]) os fates → HaveFates known before (o :: os) (fate :: fates)

namespace HaveFates

variable {known : List (KnownOption κ)} {before os : List OptionSetting}
  {fates : List (OptionFate κ)} {key : κ}

/-- What is set was written, by its word and with a value that it can have. -/
theorem exists_of_sets (h : HaveFates known before os fates) {value : SettingValue}
    (hmem : OptionFate.sets key value ∈ fates) : ∃ word form, ⟨word, key, form⟩ ∈ known ∧
      ∃ o ∈ os, o.Names word ∧ form.Reads o.value value := by
  induction h with
  | nil => cases hmem
  | @cons before os o fate fates hfate _ ih =>
      rcases List.mem_cons.mp hmem with rfl | hmem
      · cases hfate with
        | sets hknown hnames _ hreads =>
            exact ⟨_, _, hknown, o, List.mem_cons_self, hnames, hreads⟩
      · obtain ⟨word, form, hknown, p, hp, hread⟩ := ih hmem
        exact ⟨word, form, hknown, p, List.mem_cons_of_mem o hp, hread⟩

/-- An option that is left to be checked later is one of those for which that is foreseen. -/
theorem exists_of_deferred (h : HaveFates known before os fates) {o : OptionSetting}
    (hmem : OptionFate.deferred key o ∈ fates) :
    o ∈ os ∧ ∃ word, ⟨word, key, .deferred⟩ ∈ known := by
  induction h with
  | nil => cases hmem
  | cons hfate _ ih =>
      rcases List.mem_cons.mp hmem with rfl | hmem
      · cases hfate with
        | deferred hknown _ _ => exact ⟨List.mem_cons_self, _, hknown⟩
      · obtain ⟨ho, hknown⟩ := ih hmem
        exact ⟨List.mem_cons_of_mem _ ho, hknown⟩

end HaveFates

/-! ### Values are read as their forms say -/

namespace OptionValue

theorem checkFlag_cases (v : OptionValue) :
    (∃ b, OptionForm.Reads .flag v (.flag b) ∧ v.checkFlag = pure (some b)) ∨
      (∀ x, ¬OptionForm.Reads .flag v x) ∧ v.checkFlag = v.refuse .boolean := by
  cases v with
  | ident negative name span =>
      cases negative with
      | false =>
          by_cases htrue : name.text = "true"
          · exact .inl ⟨true, .yes htrue, if_pos htrue⟩
          by_cases hfalse : name.text = "false"
          · refine .inl ⟨false, .no hfalse, ?_⟩
            rw [checkFlag, if_neg htrue, if_pos hfalse]
          · refine .inr ⟨?_, ?_⟩
            · rintro x (h | h)
              · exact htrue h
              · exact hfalse h
            · rw [checkFlag, if_neg htrue, if_neg hfalse]
      | true => exact .inr ⟨nofun, rfl⟩
  | int n => exact .inr ⟨nofun, rfl⟩
  | float x span => exact .inr ⟨nofun, rfl⟩
  | string s => exact .inr ⟨nofun, rfl⟩
  | aggregate text span => exact .inr ⟨nofun, rfl⟩

theorem checkText_cases (v : OptionValue) :
    (∃ text, OptionForm.Reads .text v (.text text) ∧ v.checkText = pure (some text)) ∨
      (∃ s, v = .string s ∧ (∀ cs, Utf8.encode cs ≠ s.bytes) ∧
        v.checkText = (do report (.invalidUtf8String s.span); pure none)) ∨
      (∀ s, v ≠ .string s) ∧ (∀ x, ¬OptionForm.Reads .text v x) ∧
        v.checkText = v.refuse .string := by
  cases v with
  | string s =>
      cases hdecode : Utf8.decode? s.bytes with
      | some cs =>
          refine .inl ⟨String.ofList cs, .text (Utf8.decode?_eq_some_iff.mp hdecode), ?_⟩
          simp only [checkText, checkBytes, pure_bind, hdecode]
      | none =>
          refine .inr (.inl ⟨s, rfl, ?_, ?_⟩)
          · intro cs hcs
            rw [Utf8.decode?_eq_some_iff.mpr hcs] at hdecode
            cases hdecode
          · simp only [checkText, checkBytes, pure_bind, hdecode]
            rfl
  | ident negative name span => exact .inr (.inr ⟨nofun, nofun, rfl⟩)
  | int n => exact .inr (.inr ⟨nofun, nofun, rfl⟩)
  | float x span => exact .inr (.inr ⟨nofun, nofun, rfl⟩)
  | aggregate text span => exact .inr (.inr ⟨nofun, nofun, rfl⟩)

theorem checkChoice_cases (v : OptionValue) (enum : String) (values : List (String × Nat)) :
    (∃ n, OptionForm.Reads (.choice enum values) v (.choice n) ∧
        v.checkChoice enum values = pure (some n)) ∨
      (∀ x, ¬OptionForm.Reads (.choice enum values) v x) ∧
        v.checkChoice enum values = v.refuse (.enumValue enum) := by
  cases v with
  | ident negative name span =>
      cases negative with
      | false =>
          rw [checkChoice]
          cases hlookup : values.lookup name.text with
          | some n => exact .inl ⟨n, .choice hlookup, rfl⟩
          | none =>
              refine .inr ⟨?_, rfl⟩
              intro x hx
              cases hx with
              | choice h =>
                  rw [hlookup] at h
                  cases h
      | true => exact .inr ⟨nofun, rfl⟩
  | int n => exact .inr ⟨nofun, rfl⟩
  | float x span => exact .inr ⟨nofun, rfl⟩
  | string s => exact .inr ⟨nofun, rfl⟩
  | aggregate text span => exact .inr ⟨nofun, rfl⟩

/-- A value of an option that is not known is kept in the one way there is. -/
theorem keptAs_custom (v : OptionValue) : v.KeptAs v.custom.value v.custom.diagnostics := by
  cases v with
  | ident negative name span =>
      cases negative with
      | false => exact .word
      | true =>
          rw [custom]
          by_cases hinf : name.text = "inf"
          · rw [if_pos hinf]
            exact .infinity hinf
          · rw [if_neg hinf]
            exact .notNumber hinf
  | int n =>
      cases hneg : n.negative with
      | false =>
          rw [custom, hneg]
          exact .positive hneg
      | true =>
          have hle : n.value ≤ 0 := by
            rw [IntLiteral.value_of_negative hneg]
            omega
          rw [IntLiteral.custom_eq hneg]
          by_cases hmin : IntegerType.signed64.min ≤ n.value
          · have hmax : n.value ≤ IntegerType.signed64.max := Int.le_trans hle (by decide)
            rw [IntLiteral.verdict_of_between ⟨hmin, hmax⟩]
            exact .negative hneg hmin
          · rw [IntLiteral.verdict_of_not_between fun h => hmin h.1]
            exact .tooSmall hneg (Int.lt_of_not_ge hmin)
  | float x span => exact .float
  | string s => exact .string
  | aggregate text span => exact .aggregate

end OptionValue

/-! ### Options are read as their fates say -/

variable [OptionKey κ]

namespace OptionSetting

/-- What the first option of its name adds to a reading, and what is reported of it. -/
theorem apply_cases (o : OptionSetting) (key : κ) :
    (∃ value, (OptionKey.form key).Reads o.value value ∧
        o.apply key = pure (.addSetting key (some value))) ∨
      (∃ d, (OptionKey.form key).Refuses o d ∧ (o.apply key).diagnostics = [d] ∧
        ∀ r, (o.apply key).value r = r) ∨
      (OptionKey.form key = .deferred ∧ o.apply key = pure (.addDeferred key o)) := by
  unfold apply
  -- By the form of the option: each form has one check, and a value passes it or is refused.
  cases hform : OptionKey.form key with
  | flag =>
      rcases o.value.checkFlag_cases with ⟨b, hreads, hcheck⟩ | ⟨hreads, hcheck⟩
      · exact .inl ⟨.flag b, hreads, by rw [hcheck]; rfl⟩
      · refine .inr (.inl ⟨_, .invalid rfl hreads nofun, ?_, ?_⟩)
        · rw [hcheck]
          rfl
        · rw [hcheck]
          exact fun r => rfl
  | text =>
      rcases o.value.checkText_cases with ⟨text, hreads, hcheck⟩ | ⟨s, hs, hbytes, hcheck⟩ |
        ⟨hs, hreads, hcheck⟩
      · exact .inl ⟨.text text, hreads, by rw [hcheck]; rfl⟩
      · refine .inr (.inl ⟨_, .notUtf8 rfl hs hbytes, ?_, ?_⟩)
        · rw [hcheck]
          rfl
        · rw [hcheck]
          exact fun r => rfl
      · refine .inr (.inl ⟨_, .invalid rfl hreads fun _ => hs, ?_, ?_⟩)
        · rw [hcheck]
          rfl
        · rw [hcheck]
          exact fun r => rfl
  | choice enum values =>
      rcases o.value.checkChoice_cases enum values with ⟨n, hreads, hcheck⟩ | ⟨hreads, hcheck⟩
      · refine .inl ⟨.choice n, hreads, ?_⟩
        dsimp only
        rw [hcheck]
        rfl
      · refine .inr (.inl ⟨_, .invalid rfl hreads nofun, ?_, ?_⟩)
        · dsimp only
          rw [hcheck]
          rfl
        · dsimp only
          rw [hcheck]
          exact fun r => rfl
  | refused => exact .inr (.inl ⟨_, .mapEntry rfl, rfl, fun r => rfl⟩)
  | deferred => exact .inr (.inr ⟨rfl, rfl⟩)

theorem keptAs_parts (o : OptionSetting) :
    List.Forall₂ OptionNamePart.KeptAs o.parts (o.parts.map OptionNamePart.custom) := by
  rw [List.forall₂_map_right_iff, List.forall₂_same]
  intro part _
  cases part with
  | ident name => exact .word
  | extension name span => exact .extension

variable [LawfulOptionKey κ]

/-- The known option that a setting is found to name is the one that it names. -/
theorem known?_eq_some_iff {o : OptionSetting} {key : κ} {name : Ident} :
    o.known? κ = some (key, name) ↔ o.simpleName? = some name ∧ name.text = OptionKey.name key := by
  unfold known?
  cases hname : o.simpleName? with
  | none => simp
  | some word =>
      dsimp only
      rw [Option.map_eq_some_iff]
      constructor
      · rintro ⟨key', hkey, heq⟩
        obtain ⟨rfl, rfl⟩ := Prod.mk.inj heq
        exact ⟨rfl, (OptionKey.ofName?_eq_some_iff.mp hkey).symm⟩
      · rintro ⟨hword, htext⟩
        obtain rfl := Option.some.inj hword
        exact ⟨key, OptionKey.ofName?_eq_some_iff.mpr htext.symm, rfl⟩

theorem not_names_of_known? {o : OptionSetting} (h : o.known? κ = none) (key : κ) :
    ¬o.Names (OptionKey.name key) := by
  rintro ⟨name, hname, htext⟩
  rw [known?_eq_some_iff.mpr ⟨hname, htext⟩] at h
  cases h

end OptionSetting

/-- The first of some options that is one plain word, and that one. -/
def firstNaming (word : String) (os : List OptionSetting) : Option Ident :=
  os.findSome? fun o => o.simpleName?.filter (·.text = word)

section Word

variable {word : String} {os : List OptionSetting}

theorem not_names_of_firstNaming (h : firstNaming word os = none) : ∀ p ∈ os, ¬p.Names word := by
  rintro p hp ⟨name, hname, htext⟩
  have hnone := List.findSome?_eq_none_iff.mp h p hp
  rw [hname, Option.filter_some, if_pos (decide_eq_true htext)] at hnone
  cases hnone

theorem firstNaming_append (word : String) (before : List OptionSetting) (o : OptionSetting) :
    firstNaming word (before ++ [o]) =
      (firstNaming word before).or (o.simpleName?.filter (·.text = word)) := by
  unfold firstNaming
  rw [List.findSome?_append, List.findSome?_singleton]

/-- The option that is a word first, with what stands before it. -/
theorem exists_of_firstNaming {earlier : Ident} (h : firstNaming word os = some earlier) :
    ∃ front first behind, os = front ++ first :: behind ∧ (∀ p ∈ front, ¬p.Names word) ∧
      first.simpleName? = some earlier ∧ earlier.text = word := by
  obtain ⟨front, first, behind, rfl, hfirst, hfront⟩ := List.findSome?_eq_some_iff.mp h
  obtain ⟨hname, htext⟩ := Option.filter_eq_some_iff.mp hfirst
  exact ⟨front, first, behind, rfl,
    not_names_of_firstNaming (List.findSome?_eq_none_iff.mpr hfront), hname,
    of_decide_eq_true htext⟩

end Word

variable [DecidableEq κ]

/-- A table of names has the place of each known name that options have, where it comes first. -/
def TracksNames (seen : List (κ × Span)) (before : List OptionSetting) : Prop :=
  ∀ key : κ, seen.lookup key = (firstNaming (OptionKey.name key) before).map Ident.span

variable {seen : List (κ × Span)} {before : List OptionSetting} {o : OptionSetting}

/-- An option that names nothing new leaves the table as it is. -/
theorem TracksNames.keep (h : TracksNames seen before)
    (ho : ∀ key : κ, o.Names (OptionKey.name key) →
      firstNaming (OptionKey.name key) before ≠ none) :
    TracksNames seen (before ++ [o]) := by
  intro key
  rw [firstNaming_append, h key]
  cases hfirst : firstNaming (OptionKey.name key) before with
  | some name => rfl
  | none =>
      have hnot : ¬o.Names (OptionKey.name key) := fun hnames => ho key hnames hfirst
      cases hname : o.simpleName? with
      | none => rfl
      | some name =>
          rw [Option.filter_some, if_neg fun htext => hnot ⟨name, hname, of_decide_eq_true htext⟩]
          rfl

variable [LawfulOptionKey κ]

/-- The first option of a name is entered into the table. -/
theorem TracksNames.enter {key : κ} {name : Ident} (h : TracksNames seen before)
    (hname : o.simpleName? = some name) (htext : name.text = OptionKey.name key)
    (hnew : firstNaming (OptionKey.name key) before = none) :
    TracksNames ((key, name.span) :: seen) (before ++ [o]) := by
  intro key'
  rw [firstNaming_append, hname, Option.filter_some]
  by_cases hkey : key' = key
  · subst hkey
    rw [hnew, if_pos (decide_eq_true htext), List.lookup_cons_self]
    rfl
  · rw [List.lookup_cons, beq_eq_false_iff_ne.mpr hkey, h key',
      if_neg fun hname' => hkey (OptionKey.name_injective
        ((of_decide_eq_true hname').symm.trans htext))]
    cases firstNaming (OptionKey.name key') before <;> rfl

/-- An option is read as a fate of it says, and the table goes on to have the first places. -/
def ReadAsFated (seen : List (κ × Span)) (before : List OptionSetting) (o : OptionSetting) : Prop :=
  ∃ (fate : OptionFate κ) (seen' : List (κ × Span)),
    o.HasFate (OptionKey.entries κ) before fate ∧ TracksNames seen' (before ++ [o]) ∧ ∀ os,
      (readOptionsAfter seen (o :: os)).value = fate.add (readOptionsAfter seen' os).value ∧
      (readOptionsAfter seen (o :: os)).diagnostics =
        fate.diagnostics ++ (readOptionsAfter seen' os).diagnostics

/-- An option that names none that is known is kept. -/
theorem TracksNames.readAsFated_unknown (htracks : TracksNames seen before)
    (hknown : o.known? κ = none) : ReadAsFated seen before o := by
  have hnot := o.not_names_of_known? hknown
  refine ⟨.kept o.custom.value o.value.custom.diagnostics, seen,
    .kept (fun entry hentry => ?_) o.keptAs_parts o.value.keptAs_custom,
    htracks.keep fun key hnames => absurd hnames (hnot key), fun os => ?_⟩
  · obtain ⟨key, -, rfl⟩ := List.mem_map.mp hentry
    exact hnot key
  simp only [readOptionsAfter, hknown]
  refine ⟨rfl, ?_⟩
  rw [diagnostics_bind, diagnostics_bind, diagnostics_pure, List.append_nil, OptionSetting.custom,
    diagnostics_bind, diagnostics_pure, List.append_nil]
  rfl

section Known

variable {key : κ} {name earlier : Ident}

/-- An option that names one that was named before is only reported. -/
theorem TracksNames.readAsFated_repeated (htracks : TracksNames seen before)
    (hknown : o.known? κ = some (key, name))
    (hfirst : firstNaming (OptionKey.name key) before = some earlier) :
    ReadAsFated seen before o := by
  obtain ⟨hname, htext⟩ := OptionSetting.known?_eq_some_iff.mp hknown
  have hseen := htracks key
  rw [hfirst] at hseen
  obtain ⟨front, first, behind, hbefore, hfront, hearlier, htext'⟩ := exists_of_firstNaming hfirst
  have hkeep : ∀ key' : κ, o.Names (OptionKey.name key') →
      firstNaming (OptionKey.name key') before ≠ none := by
    rintro key' ⟨name', hname', htext''⟩ hnone
    rw [hname] at hname'
    obtain rfl := Option.some.inj hname'
    obtain rfl := OptionKey.name_injective (htext.symm.trans htext'')
    rw [hfirst] at hnone
    cases hnone
  refine ⟨.repeated _, seen,
    .repeated (OptionKey.mem_entries key) hbefore hfront hearlier htext' hname htext,
    htracks.keep hkeep, fun os => ?_⟩
  simp only [readOptionsAfter, hknown, hseen]
  rw [htext]
  exact ⟨rfl, rfl⟩

/-- An option that is the first to name one that is known is entered, whatever its value. -/
theorem TracksNames.readAsFated_first (htracks : TracksNames seen before)
    (hknown : o.known? κ = some (key, name))
    (hfirst : firstNaming (OptionKey.name key) before = none) : ReadAsFated seen before o := by
  obtain ⟨hname, htext⟩ := OptionSetting.known?_eq_some_iff.mp hknown
  have hseen := htracks key
  rw [hfirst] at hseen
  have hnew := not_names_of_firstNaming hfirst
  have hnames : o.Names (OptionKey.name key) := ⟨name, hname, htext⟩
  have hmem := OptionKey.mem_entries key
  have henter := htracks.enter hname htext hfirst
  rcases o.apply_cases key with ⟨value, hreads, happly⟩ | ⟨d, hrefuses, hd, hr⟩ | ⟨hform, happly⟩
  · refine ⟨.sets key value, _, .sets hmem hnames hnew hreads, henter, fun os => ?_⟩
    simp only [readOptionsAfter, hknown, hseen, happly]
    exact ⟨rfl, by simp [OptionFate.diagnostics]⟩
  · refine ⟨.refused d, _, .refused hmem hnames hnew hrefuses, henter, fun os => ?_⟩
    simp only [readOptionsAfter, hknown, hseen, Option.map_none]
    refine ⟨hr _, ?_⟩
    rw [diagnostics_bind, diagnostics_bind, diagnostics_pure, List.append_nil, hd]
    rfl
  · refine ⟨.deferred key o, _, .deferred (hform ▸ hmem) hnames hnew, henter, fun os => ?_⟩
    simp only [readOptionsAfter, hknown, hseen, happly]
    exact ⟨rfl, by simp [OptionFate.diagnostics]⟩

end Known

theorem TracksNames.readAsFated (htracks : TracksNames seen before) (o : OptionSetting) :
    ReadAsFated seen before o := by
  cases hknown : o.known? κ with
  | none => exact htracks.readAsFated_unknown hknown
  | some found =>
      cases hfirst : firstNaming (OptionKey.name found.1) before with
      | some earlier => exact htracks.readAsFated_repeated hknown hfirst
      | none => exact htracks.readAsFated_first hknown hfirst

/-- **What options amount to is what their fates amount to.** -/
theorem exists_fates (os : List OptionSetting) : ∀ (seen : List (κ × Span))
    (before : List OptionSetting), TracksNames seen before → ∃ fates : List (OptionFate κ),
      HaveFates (OptionKey.entries κ) before os fates ∧
      (readOptionsAfter seen os).value =
        ⟨fates.filterMap OptionFate.setting?, fates.filterMap OptionFate.deferred?,
          fates.filterMap OptionFate.kept?⟩ ∧
      (readOptionsAfter seen os).diagnostics = fates.flatMap OptionFate.diagnostics := by
  induction os with
  | nil => intro seen before _; exact ⟨[], .nil, rfl, rfl⟩
  | cons o os ih =>
      intro seen before htracks
      obtain ⟨fate, seen', hfate, htracks', hread⟩ := htracks.readAsFated o
      obtain ⟨fates, hfates, hvalue, hfound⟩ := ih seen' (before ++ [o]) htracks'
      refine ⟨fate :: fates, .cons hfate hfates, ?_, ?_⟩
      · rw [(hread os).1, hvalue]
        cases fate <;> rfl
      · rw [(hread os).2, hfound, List.flatMap_cons]

/-! ### The options of a declaration -/

/--
A declaration has the options that its list amounts to where some options are known, and what is
due to them is reported.
-/
def AccountsFor (known : List (KnownOption κ)) (os : List OptionSetting)
    (options : Option (Options κ)) (found : List Diagnostic) : Prop :=
  ∃ fates : List (OptionFate κ), HaveFates known [] os fates ∧
    fates.filterMap OptionFate.deferred? = [] ∧
    HoldsOptions options (fates.filterMap OptionFate.setting?) (fates.filterMap OptionFate.kept?) ∧
    found = fates.flatMap OptionFate.diagnostics

theorem accountsFor_optionsOf (hκ : ∀ entry ∈ OptionKey.entries κ, entry.form ≠ .deferred)
    (os : List OptionSetting) :
    AccountsFor (OptionKey.entries κ) os (optionsOf os : Checked (Option (Options κ))).value
      (optionsOf os : Checked (Option (Options κ))).diagnostics := by
  obtain ⟨fates, hfates, hvalue, hfound⟩ := exists_fates os ([] : List (κ × Span)) [] fun _ => rfl
  refine ⟨fates, hfates, List.filterMap_eq_nil_iff.mpr fun fate hmem => ?_, ?_, ?_⟩
  · cases fate with
    | deferred key o =>
        obtain ⟨-, word, hknown⟩ := hfates.exists_of_deferred hmem
        exact absurd rfl (hκ _ hknown)
    | sets _ _ => rfl
    | refused _ => rfl
    | repeated _ => rfl
    | kept _ _ => rfl
  · unfold optionsOf readOptions
    rw [value_bind, value_pure, hvalue]
    exact holdsOptions_nonempty? _ _
  · unfold optionsOf readOptions
    rw [diagnostics_bind, diagnostics_pure, List.append_nil, hfound]

end Keys

end ProtoSchema
