/-
The places in a tree.

Each production is followed from its first token to its last.  Its node starts where the
first part that belongs to it starts, ends where the last one ends, and what is read between
the two lies between them; so there is one lemma for each production, in the order of the
grammar, and each of them is about the order of its parts.
-/
import ProtoSchema.Proofs.Positions.Traces

namespace ProtoSchema.Parser.Traces

variable {source : List Char} {lo : Nat}

/-! ### Names -/

theorem ident : Locates source ident := by
  intro lo
  refine require fun t s a hfound ha => ?_
  split at ha
  · obtain rfl := Option.some.inj ha
    exact ⟨hfound.within, slice_of_ident_mem_scan hfound.mem⟩
  · cases ha

theorem dottedName (stop : Terminator) : Locates source (dottedName stop) := by
  intro lo
  unfold Parser.dottedName
  refine bind (ident lo) fun first a _ hfirst => ?_
  refine bind (many fun lo => ?_) fun rest b _ hrest => pure ?_
  · refine bind (acceptMark? .dot) fun dot mid hle _ => ?_
    split
    · exact since hle (yield (ident mid))
    · refine peek fun t? => ?_
      split
      · split
        · exact since hle Traces.stop
        · exact unexpected _
      · exact unexpected _
  · have hrow : Row source lo b (first :: rest) := ⟨a, hfirst, hrest⟩
    exact ⟨hrow.hull_within, hrow.lies_hull⟩

theorem typeName (stop : Terminator) : Locates source (typeName stop) := by
  intro lo
  unfold Parser.typeName
  refine peek fun t? => ?_
  split
  · refine bind (expectMark .dot) fun dot a _ hdot => ?_
    refine bind (dottedName stop a) fun name b _ hname => pure ⟨?_, fun s hs => ?_, ?_⟩
    · exact hdot.through hname.within (Nat.le_refl a)
    · obtain rfl := Option.some.inj hs
      exact ⟨hdot.fits, Nat.le_refl _, Nat.le_trans hdot.before hname.within.le_stop⟩
    · exact hname.self.mono (Nat.le_trans hdot.start_le hname.within.after) (Nat.le_refl _)
  · refine bind (dottedName stop lo) fun name b _ hname => pure ⟨hname.within, fun s hs => ?_, ?_⟩
    · cases hs
    · exact hname.self
  · exact unexpected _

/-! ### Literals -/

theorem integer : Locates source integer := by
  intro lo
  unfold Parser.integer
  refine bind (acceptMark? .minus) fun minus a _ hminus => ?_
  refine bind (Q := fun b found => found.2.Within source ⟨a, b⟩) (require ?_) ?_
  · intro t s found hfound hn
    split at hn
    · obtain rfl := Option.some.inj hn
      exact hfound.within
    · cases hn
  · rintro ⟨n, s⟩ b hab hs
    cases minus with
    | some m => exact pure ⟨(hminus m rfl).through hs (Nat.le_refl a), trivial⟩
    | none => exact pure ⟨hs.mono ‹lo ≤ a› (Nat.le_refl b), trivial⟩

theorem quoted {t : Token} {s : Span} {l : StringLiteral} (hfound : Found source lo t s)
    (hl : quoted? t s = some l) : Lies source ⟨lo, s.stop⟩ l := by
  unfold quoted? at hl
  split at hl
  · rename_i bytes
    obtain rfl := Option.some.inj hl
    exact ⟨hfound.within, bytes, s, hfound.mem, rfl⟩
  · cases hl

theorem stringLiteral : Locates source stringLiteral := by
  intro lo
  unfold Parser.stringLiteral
  refine bind (Q := fun a l => Lies source ⟨lo, a⟩ l) (require fun t s l => quoted)
    fun first a _ hfirst => ?_
  refine bind (many fun lo => ?_) fun rest b _ hrest => pure ?_
  · refine bind (Q := fun b found => ∀ s, found = some s → Lies source ⟨lo, b⟩ s)
      (accept? (fun t s l hfound hl l' hl' => ?_) fun l hl => by cases hl) fun found mid hle h => ?_
    · obtain rfl := Option.some.inj hl'
      exact quoted hfound hl
    · cases found with
      | some s =>
          refine pure fun s' hs' => ?_
          obtain rfl := Turn.yield.inj hs'
          exact h s rfl
      | none => exact since hle Traces.stop
  · have hrow : Row source lo b (first :: rest) := ⟨a, hfirst, hrest⟩
    exact ⟨hrow.hull_within, hfirst.nested⟩

/-- A text stands where its string literals stand. -/
theorem textLiteral : Traces source lo
    (fun hi n => n.span.Within source ⟨lo, hi⟩ ∧ n.span.Quoted source) textLiteral := by
  unfold Parser.textLiteral
  refine bind (stringLiteral lo) fun l a _ hl => ?_
  split
  · exact pure ⟨hl.within, hl.nested⟩
  · exact report (.one rfl hl.within.fits) (pure ⟨hl.within, hl.nested⟩)

/-! ### Options -/

theorem signedValue {minus : Option Span} {m : Nat} (hle : m ≤ lo)
    (hminus : ∀ s ∈ minus, s.Within source ⟨m, lo⟩) :
    Traces source lo (fun hi v => Lies source ⟨m, hi⟩ v) (signedValue minus) := by
  have hsigned : ∀ {hi s}, s.Within source ⟨lo, hi⟩ →
      ((minus.getD s).through s).Within source ⟨m, hi⟩ ∧
        s.Within source ((minus.getD s).through s) := by
    intro hi s hs
    cases minus with
    | none => exact ⟨hs.mono hle (Nat.le_refl _), .self hs.fits⟩
    | some m =>
        have hm := hminus m rfl
        exact ⟨hm.through hs (Nat.le_refl _), hs.fits,
          Nat.le_trans hm.start_le hs.after, Nat.le_refl _⟩
  unfold Parser.signedValue
  refine bind (Q := fun a v => Lies source ⟨m, a⟩ v) (require fun t s v hfound hv => ?_)
    fun v a _ hv => ?_
  · obtain ⟨hwithin, hpart⟩ := hsigned hfound.within
    split at hv
    · obtain rfl := Option.some.inj hv
      exact ⟨hwithin, trivial⟩
    · obtain rfl := Option.some.inj hv
      exact ⟨hwithin, trivial⟩
    · obtain rfl := Option.some.inj hv
      exact ⟨hwithin, hpart, slice_of_ident_mem_scan hfound.mem⟩
    · cases hv
  · split
    · split
      · exact pure hv
      · exact report (.one rfl hv.within.fits) (pure hv)
    · exact pure hv

theorem blockEnd : Traces source lo (fun hi s => s.Within source ⟨lo, hi⟩) blockEnd := by
  intro inBody r hr
  have h := Remainder.Placed.skipBlock 0 hr
  unfold Parser.blockEnd
  split
  · rename_i s r' heq
    rw [heq] at h
    exact ⟨s.stop, h.1.start_le_stop, h.1, h.2⟩
  · rename_i r' heq
    rw [heq] at h
    exact unexpected _ inBody r' h

theorem aggregate : Locates source aggregate := by
  intro lo
  unfold Parser.aggregate
  refine bind (expectMark .leftBrace) fun opening a _ hopening => ?_
  refine bind blockEnd fun closing b _ hclosing => ?_
  refine bind (Q := fun c _ => c = b) (fun _ _ hr => ⟨b, Nat.le_refl b, rfl, hr⟩)
    fun text c _ hc => pure ?_
  subst hc
  exact ⟨hopening.through hclosing (Nat.le_refl a), trivial⟩

theorem optionValue : Locates source optionValue := by
  intro lo
  unfold Parser.optionValue
  refine peek fun t? => ?_
  cases t? with
  | none => exact unexpected _
  | some t =>
      cases t with
      | ident word => exact bind (ident lo) fun name a _ hname => pure ⟨hname.within, hname.self⟩
      | int n => exact signedValue (Nat.le_refl lo) nofun
      | float x => exact signedValue (Nat.le_refl lo) nofun
      | string b => exact bind (stringLiteral lo) fun s a _ hs => pure ⟨hs.within, trivial⟩
      | mark p =>
          cases p with
          | plus => exact bind (acceptMark? .plus) fun _ a hle _ => signedValue hle nofun
          | minus =>
              refine bind (expectMark .minus) fun minus a hle hminus => signedValue hle fun s hs => ?_
              obtain rfl := Option.some.inj hs
              exact hminus
          | leftBrace => exact aggregate lo
          | _ => exact unexpected _

theorem optionNamePart : Locates source optionNamePart := by
  intro lo
  unfold Parser.optionNamePart
  refine peek fun t? => ?_
  split
  · refine bind (expectMark .leftParen) fun opening a _ hopening => ?_
    refine bind (typeName _ a) fun name b _ hname => ?_
    refine bind (expectMark .rightParen) fun closing c _ hclosing => pure ⟨?_, ?_⟩
    · exact hopening.through hclosing hname.within.start_le_stop
    · exact hname.between hopening.start_le hclosing.le_stop
  · exact bind (ident lo) fun name a _ hname => pure ⟨hname.within, hname.nested⟩
  · exact unexpected _

theorem optionSetting : Locates source optionSetting := by
  intro lo
  unfold Parser.optionSetting
  refine bind (optionNamePart lo) fun first a _ hfirst => ?_
  refine bind (many fun lo => ?_) fun rest b _ hrest => ?_
  · refine bind (acceptMark? .dot) fun dot mid hle _ => ?_
    split
    · exact since hle (yield (optionNamePart mid))
    · refine bind (acceptMark? .equals) fun equals mid' hle' _ => ?_
      split
      · exact since (Nat.le_trans hle hle') Traces.stop
      · exact unexpected _
  · have hrow : Row source lo b (first :: rest) := ⟨a, hfirst, hrest⟩
    have hname := hrow.hull_within
    refine bind (optionValue b) fun value c _ hvalue => pure ⟨?_, ?_, ?_, ?_⟩
    · exact hname.through hvalue.within (Nat.le_refl b)
    · exact ⟨hname.fits, Nat.le_refl _, Nat.le_trans hname.before hvalue.within.le_stop⟩
    · exact hrow.lies_hull
    · exact hvalue.self.mono (Nat.le_trans hname.start_le hvalue.within.after) (Nat.le_refl _)

theorem optionStatement : Locates source optionStatement := by
  intro lo
  unfold Parser.optionStatement
  refine bind (expectKeyword .kwOption) fun start a _ hstart => ?_
  refine bind (optionSetting a) fun setting b hab hsetting => ?_
  refine bind (expectMark .semicolon) fun stop c _ hstop => pure ⟨?_, ?_⟩
  · exact hstart.through hstop hab
  · exact hsetting.between hstart.start_le hstop.le_stop

/-- A list of options stands where it is read, and its options in a row. -/
theorem optionList : Traces source lo
    (fun hi l => Lies source ⟨lo, hi⟩ l ∧ l.settings.Pairwise Precedes) optionList := by
  unfold Parser.optionList
  refine bind (expectMark .leftBracket) fun opening a _ hopening => ?_
  refine bind (optionSetting a) fun first b hab hfirst => ?_
  refine bind (many fun lo => ?_) fun rest c hbc hrest => ?_
  · refine bind (acceptMark? .comma) fun comma mid hle _ => ?_
    split
    · exact since hle (yield (optionSetting mid))
    · refine peek fun t? => ?_
      split
      · exact since hle Traces.stop
      · exact unexpected _
  · have hrow : Row source a c (first :: rest) := ⟨b, hfirst, hrest⟩
    refine bind (expectMark .rightBracket) fun closing d _ hclosing => pure ⟨⟨?_, fun o ho => ?_⟩, ?_⟩
    · exact hopening.through hclosing hrow.le
    · exact (hrow.lies o ho).between hopening.start_le hclosing.le_stop
    · exact hrow.pairwise

theorem optionList? : Traces source lo
    (fun hi list => (∀ l ∈ list, Lies source ⟨lo, hi⟩ l) ∧
      (OptionList.settingsOf list).Pairwise Precedes) optionList? := by
  unfold Parser.optionList?
  refine peek fun t? => ?_
  split
  · refine bind optionList fun list a _ hlist => pure ⟨fun l hl => ?_, hlist.2⟩
    obtain rfl := Option.some.inj hl
    exact hlist.1
  · exact pure ⟨fun l hl => (by cases hl), .nil⟩

/-! ### Fields -/

theorem label? : Traces source lo (fun hi label => ∀ l ∈ label, l.2.Within source ⟨lo, hi⟩)
    label? := by
  unfold Parser.label?
  refine accept? (fun t s a hfound ha b hb => ?_) fun b hb => by cases hb
  obtain rfl := Option.some.inj hb
  split at ha
  · obtain ⟨l, -, rfl⟩ := Option.map_eq_some_iff.mp ha
    exact hfound.within
  · cases ha

theorem typeUse (stop : Terminator) : Traces source lo
    (fun hi u => u.2.Within source ⟨lo, hi⟩ ∧ u.1.Nested source u.2) (typeUse stop) := by
  unfold Parser.typeUse
  refine bind (Q := fun a found => ∀ u ∈ found, u.2.Within source ⟨lo, a⟩)
    (accept? (fun t s u hfound hu v hv => ?_) fun v hv => by cases hv) fun found a hle hfound => ?_
  · obtain rfl := Option.some.inj hv
    split at hu
    · obtain ⟨type, -, rfl⟩ := Option.map_eq_some_iff.mp hu
      exact hfound.within
    · cases hu
  · split
    · exact pure ⟨hfound _ rfl, trivial⟩
    · refine bind (typeName stop a) fun name b _ hname => pure ⟨?_, hname.self⟩
      exact hname.within.mono hle (Nat.le_refl b)

theorem fieldKind : Locates source fieldKind := by
  intro lo
  unfold Parser.fieldKind
  refine bind (acceptKeyword? .kwMap) fun start a hle hstart => ?_
  split
  · rename_i start
    have hstart := hstart start rfl
    refine bind (expectMark .leftAngle) fun _ b hab _ => ?_
    refine bind (typeUse _) fun key c hbc hkey => ?_
    refine bind (expectMark .comma) fun _ d hcd _ => ?_
    refine bind (typeUse _) fun value e hde hvalue => ?_
    refine bind (expectMark .rightAngle) fun stop f hef hstop => pure ⟨?_, ?_, hkey.2, ?_, hvalue.2⟩
    · exact hstart.through hstop (by dsimp only; omega)
    · refine hkey.1.mono ?_ ?_
      · exact Nat.le_trans hstart.start_le hab
      · exact Nat.le_trans (Nat.le_trans hcd hde) hstop.le_stop
    · refine hvalue.1.mono ?_ hstop.le_stop
      exact Nat.le_trans hstart.start_le (by dsimp only; omega)
  · refine bind (typeUse _) fun type b _ htype => pure ⟨?_, htype.2⟩
    exact htype.1.mono hle (Nat.le_refl b)

/-- A field starts with its label, if it has one, and with its type otherwise. -/
def fieldStart (label : Option (Label × Span)) (kind : FieldKind) : Span :=
  match label with
  | some (_, s) => s
  | none => kind.span

theorem within_fieldStart {label : Option (Label × Span)} {kind : FieldKind} {a b : Nat}
    (hla : lo ≤ a) (hlabel : ∀ l ∈ label, l.2.Within source ⟨lo, a⟩)
    (hkind : Lies source ⟨a, b⟩ kind) :
    (fieldStart label kind).Within source ⟨lo, b⟩ ∧
      (fieldStart label kind).start ≤ kind.span.start ∧
        ∀ l ∈ label, (fieldStart label kind).start ≤ l.2.start := by
  have hab := hkind.within.start_le_stop
  cases label with
  | none =>
      exact ⟨hkind.within.mono hla (Nat.le_refl b), Nat.le_refl _, fun l hl => by cases hl⟩
  | some l =>
      have hl := hlabel l rfl
      refine ⟨hl.mono (Nat.le_refl lo) hab, Nat.le_trans hl.start_le hkind.within.after, ?_⟩
      intro l' hl'
      obtain rfl := Option.some.inj hl'
      exact Nat.le_refl _

theorem field : Locates source field := by
  intro lo
  unfold Parser.field
  refine bind label? fun label a hla hlabel => ?_
  refine bind (fieldKind a) fun kind b hab hkind => ?_
  refine bind (ident b) fun name c hbc hname => ?_
  refine bind (expectMark .equals) fun _ d hcd _ => ?_
  refine bind (integer d) fun number e hde hnumber => ?_
  refine bind optionList? fun options f hef hoptions => ?_
  refine bind (expectMark .semicolon) fun stop g hfg hstop => ?_
  obtain ⟨hstart, hkindStart, hlabelStart⟩ := within_fieldStart hla hlabel hkind
  have hb := hstart.start_le
  have hf := hstop.le_stop
  refine pure
    (a := (⟨label, kind, name, number, options, (fieldStart label kind).through stop⟩ : Field))
    ⟨?_, ?_, ?_, ?_, ?_, ?_⟩
  · exact hstart.through hstop (by dsimp only; omega)
  · intro l hl
    have h := hlabel l hl
    exact ⟨h.fits, hlabelStart l hl, Nat.le_trans h.before (by dsimp only [Span.through]; omega)⟩
  · exact hkind.self.mono hkindStart
      (Nat.le_trans hkind.within.before (by dsimp only [Span.through]; omega))
  · exact hname.between hb (by omega)
  · exact hnumber.between (by omega) (by omega)
  · exact fun o ho => (hoptions.1 o ho).between (by omega) hf

/-! ### Ranges and reservations -/

theorem numberRange : Locates source numberRange := by
  intro lo
  unfold Parser.numberRange
  refine bind (integer lo) fun start a hla hstart => ?_
  refine bind (acceptKeyword? .kwTo) fun found b hab _ => ?_
  split
  · exact pure ⟨hstart.within.mono (Nat.le_refl lo) hab, hstart.self, trivial⟩
  · refine bind (acceptKeyword? .kwMax) fun max c hbc hmax => ?_
    split
    · rename_i s
      have hs := hmax s rfl
      have h := hs.le_stop
      refine pure ⟨hstart.within.through hs hab, ?_, ?_⟩
      · exact hstart.self.mono (Nat.le_refl _)
          (Nat.le_trans hstart.within.before (Nat.le_trans hab h))
      · exact ⟨hs.fits, Nat.le_trans hstart.within.start_le (Nat.le_trans hab hs.after),
          Nat.le_refl _⟩
    · refine peek fun t? => ?_
      -- The end of a range is a number, which a minus may begin.
      have hto : Traces source c (fun hi r => Lies source ⟨lo, hi⟩ r)
          (Parser.integer >>= fun stop => Pure.pure (⟨start, .to stop⟩ : NumberRange)) := by
        refine bind (integer c) fun stop d hcd hstop => ?_
        have hac : a ≤ c := Nat.le_trans hab hbc
        refine pure (a := (⟨start, .to stop⟩ : NumberRange)) ⟨?_, ?_, ?_⟩
        · exact hstart.within.through hstop.within hac
        · exact hstart.self.mono (Nat.le_refl _)
            (Nat.le_trans hstart.within.before (Nat.le_trans hac hstop.within.le_stop))
        · exact hstop.self.mono
            (Nat.le_trans hstart.within.start_le (Nat.le_trans hac hstop.within.after))
            (Nat.le_refl _)
      cases t? with
      | none => exact unexpected _
      | some t =>
          cases t with
          | int n => exact hto
          | mark p =>
              cases p with
              | minus => exact hto
              | _ => exact unexpected _
          | _ => exact unexpected _

/-- Items separated by commas stand in a row. -/
theorem separated {α : Type} {inst : Node α} {item : Parser α} (hp : Locates source item) :
    Traces source lo (fun hi as => ∀ a ∈ as, Lies source ⟨lo, hi⟩ a) (separated item) := by
  unfold Parser.separated
  refine bind (hp lo) fun first a _ hfirst => ?_
  refine bind (many fun lo => ?_) fun rest b _ hrest => pure ?_
  · refine bind (acceptMark? .comma) fun comma mid hle _ => ?_
    split
    · exact since hle (yield (hp mid))
    · exact since hle Traces.stop
  · have hrow : Row source lo b (first :: rest) := ⟨a, hfirst, hrest⟩
    exact hrow.lies

theorem reservedName : @Locates Ident Ident.reservedNode source reservedName := by
  intro lo
  unfold Parser.reservedName
  refine peek fun t? => ?_
  split
  · exact mono (ident lo) fun hi n _ hn =>
      @Lies.mk _ Ident.reservedNode _ _ _ hn.within (.inl hn.nested)
  · exact mono textLiteral fun hi n _ hn => @Lies.mk _ Ident.reservedNode _ _ _ hn.1 (.inr hn.2)

theorem reservedStatement : Locates source reservedStatement := by
  intro lo
  unfold Parser.reservedStatement
  refine bind (expectKeyword .kwReserved) fun start a _ hstart => ?_
  have hend : ∀ b kind, a ≤ b → kind.Nested source ⟨a, b⟩ →
      Traces source b (fun hi r => Lies source ⟨lo, hi⟩ r) (do
        let stop ← Parser.expectMark .semicolon
        Pure.pure (⟨kind, start.through stop⟩ : Reserved)) := by
    intro b kind hab hkind
    refine bind (Parser.Traces.expectMark .semicolon) fun stop c _ hstop => pure ⟨?_, ?_⟩
    · exact hstart.through hstop hab
    · cases kind with
      | ranges rs => exact fun r hr => (hkind r hr).between hstart.start_le hstop.le_stop
      | names ns => exact fun n hn => (hkind n hn).between hstart.start_le hstop.le_stop
  have hranges : Traces source a (fun hi r => Lies source ⟨lo, hi⟩ r) (do
      let ranges ← Parser.separated Parser.numberRange
      let stop ← Parser.expectMark .semicolon
      Pure.pure (⟨.ranges ranges, start.through stop⟩ : Reserved)) :=
    bind (separated numberRange) fun ranges b hab hrs => hend b (.ranges ranges) hab hrs
  have hnames : Traces source a (fun hi r => Lies source ⟨lo, hi⟩ r) (do
      let names ← Parser.separated Parser.reservedName
      let stop ← Parser.expectMark .semicolon
      Pure.pure (⟨.names names, start.through stop⟩ : Reserved)) :=
    bind (separated reservedName) fun names b hab hns =>
      hend b (.names names) hab hns
  -- Without a number or a name the statement is refused, and locates nothing.
  have hnone : Traces source a (fun hi r => Lies source ⟨lo, hi⟩ r) (do
      let kind ← Parser.unexpected .reservation
      let stop ← Parser.expectMark .semicolon
      Pure.pure (⟨kind, start.through stop⟩ : Reserved)) :=
    bind (Q := fun _ _ => False) (unexpected _) fun _ _ _ h => h.elim
  refine peek fun t? => ?_
  cases t? with
  | none => exact hnone
  | some t =>
      cases t with
      | int n => exact hranges
      | string b => exact hnames
      | ident word => exact hnames
      | float x => exact hnone
      | mark p =>
          cases p with
          | minus => exact hranges
          | _ => exact hnone

theorem extensionsStatement : Locates source extensionsStatement := by
  intro lo
  unfold Parser.extensionsStatement
  refine bind (expectKeyword .kwExtensions) fun start a _ hstart => ?_
  refine bind (separated numberRange) fun ranges b hab hranges => ?_
  refine bind optionList? fun options c hbc hoptions => ?_
  refine bind (expectMark .semicolon) fun stop d hcd hstop => pure ⟨?_, ?_, ?_⟩
  · exact hstart.through hstop (Nat.le_trans hab hbc)
  · exact fun r hr => (hranges r hr).between hstart.start_le (Nat.le_trans hbc hstop.le_stop)
  · exact fun o ho => (hoptions.1 o ho).between (Nat.le_trans hstart.start_le hab) hstop.le_stop

/-! ### Oneofs and extensions

The members of a body have one type for each body, so that their spans can be compared before
they are gathered by kind. -/

/-- Members of one kind lie where all members lie. -/
theorem lies_filterMap {α β : Type} [Node α] [Node β] {outer : Span} {ms : List α}
    {get : α → Option β} (hms : ∀ m ∈ ms, Lies source outer m)
    (h : ∀ m x, get m = some x → Lies source outer m → Lies source outer x) :
    ∀ x ∈ ms.filterMap get, Lies source outer x := by
  intro x hx
  obtain ⟨m, hm, hget⟩ := List.mem_filterMap.mp hx
  exact h m x hget (hms m hm)

theorem lies_members {α : Type} [Node α] {start stop : Span} {ms : List α} (h : start.start ≤ lo)
    (hms : Row source lo stop.stop ms) :
    ∀ m ∈ ms, Lies source (start.through stop) m :=
  fun m hm => (hms.lies m hm).between h (Nat.le_refl _)

theorem oneofMember : Locates source oneofMember := by
  intro lo
  unfold Parser.oneofMember
  refine peekKeyword fun k? => ?_
  split
  · exact map (mono (optionStatement lo) fun hi o _ ho => ⟨ho.within, ho.nested⟩)
  · have hfield : Traces source lo (fun hi m => Lies source ⟨lo, hi⟩ m)
        (OneofMember.field <$> Parser.field) :=
      map (mono (field lo) fun hi f _ hf => ⟨hf.within, hf.nested⟩)
    refine peek fun t? => ?_
    split
    · exact hfield
    · exact hfield
    · exact unexpected _

theorem oneof : Locates source oneof := by
  intro lo
  unfold Parser.oneof
  refine bind (expectKeyword .kwOneof) fun start a _ hstart => ?_
  refine bind (ident a) fun name b hab hname => ?_
  refine bind (body oneofMember) fun found c hbc hfound => ?_
  obtain ⟨members, stop⟩ := found
  obtain ⟨hstop, hmembers⟩ := hfound
  have hin := lies_members (Nat.le_trans hstart.start_le hab) hmembers
  refine pure ⟨hstart.through hstop hab, hname.between hstart.start_le hstop.le_stop, ?_, ?_⟩
  · refine lies_filterMap hin fun m o hget hm => ?_
    cases m with
    | option o' => cases hget; exact ⟨hm.within, hm.nested⟩
    | field f => cases hget
  · refine lies_filterMap hin fun m f hget hm => ?_
    cases m with
    | option o => cases hget
    | field f' => cases hget; exact ⟨hm.within, hm.nested⟩

theorem extendMember : Locates source extendMember := by
  intro lo
  unfold Parser.extendMember
  refine peek fun t? => ?_
  split
  · exact field lo
  · exact field lo
  · exact unexpected _

theorem extend : Locates source extend := by
  intro lo
  unfold Parser.extend
  refine bind (expectKeyword .kwExtend) fun start a _ hstart => ?_
  refine bind (typeName _ a) fun extendee b hab hextendee => ?_
  refine bind (body extendMember) fun found c hbc hfound => ?_
  obtain ⟨fields, stop⟩ := found
  obtain ⟨hstop, hfields⟩ := hfound
  refine pure ⟨hstart.through hstop hab, hextendee.between hstart.start_le hstop.le_stop, ?_⟩
  exact lies_members (Nat.le_trans hstart.start_le hab) hfields

/-! ### Enums -/

theorem enumValue : Locates source enumValue := by
  intro lo
  unfold Parser.enumValue
  refine bind (ident lo) fun name a _ hname => ?_
  refine bind (expectMark .equals) fun _ b hab _ => ?_
  refine bind (integer b) fun number c hbc hnumber => ?_
  refine bind optionList? fun options d hcd hoptions => ?_
  refine bind (expectMark .semicolon) fun stop e hde hstop => ?_
  have ha : name.span.start ≤ a := hname.within.start_le
  have hd := hstop.le_stop
  refine pure (a := (⟨name, number, options, name.span.through stop⟩ : EnumValue)) ⟨?_, ?_, ?_, ?_⟩
  · exact hname.within.through hstop (by dsimp only; omega)
  · exact hname.self.mono (Nat.le_refl _) (Nat.le_trans hname.within.before
      (Nat.le_trans (by dsimp only; omega) hd))
  · exact hnumber.between (by omega) (by omega)
  · exact fun o ho => (hoptions.1 o ho).between (by omega) hd

theorem enumMember : Locates source enumMember := by
  intro lo
  unfold Parser.enumMember
  refine peekKeyword fun k? => ?_
  split
  · exact map (mono (optionStatement lo) fun hi o _ ho => ⟨ho.within, ho.nested⟩)
  · exact map (mono (reservedStatement lo) fun hi r _ hr => ⟨hr.within, hr.nested⟩)
  · refine peek fun t? => ?_
    split
    · exact map (mono (enumValue lo) fun hi v _ hv => ⟨hv.within, hv.nested⟩)
    · exact unexpected _

theorem enum : Locates source enum := by
  intro lo
  unfold Parser.enum
  refine bind (expectKeyword .kwEnum) fun start a _ hstart => ?_
  refine bind (ident a) fun name b hab hname => ?_
  refine bind (body enumMember) fun found c hbc hfound => ?_
  obtain ⟨members, stop⟩ := found
  obtain ⟨hstop, hmembers⟩ := hfound
  have hin := lies_members (Nat.le_trans hstart.start_le hab) hmembers
  refine pure ⟨hstart.through hstop hab, hname.between hstart.start_le hstop.le_stop, ?_, ?_, ?_⟩
  · refine lies_filterMap hin fun m o hget hm => ?_
    cases m with
    | option o' => cases hget; exact ⟨hm.within, hm.nested⟩
    | reserved r => cases hget
    | value v => cases hget
  · refine lies_filterMap hin fun m v hget hm => ?_
    cases m with
    | option o => cases hget
    | reserved r => cases hget
    | value v' => cases hget; exact ⟨hm.within, hm.nested⟩
  · refine lies_filterMap hin fun m r hget hm => ?_
    cases m with
    | option o => cases hget
    | reserved r' => cases hget; exact ⟨hm.within, hm.nested⟩
    | value v => cases hget

/-! ### Services -/

theorem methodMember : Locates source methodMember := by
  intro lo
  unfold Parser.methodMember
  refine peekKeyword fun k? => ?_
  split
  · exact optionStatement lo
  · exact unexpected _

theorem methodType : Traces source lo (fun hi t => Lies source ⟨lo, hi⟩ t.2 ∧
    ∀ s ∈ t.1, s.Within source ⟨lo, hi⟩) methodType := by
  unfold Parser.methodType
  refine bind (expectMark .leftParen) fun _ a hla _ => ?_
  refine bind (acceptKeyword? .kwStream) fun streaming b hab hstreaming => ?_
  refine bind (typeName _ b) fun type c hbc htype => ?_
  refine bind (expectMark .rightParen) fun _ d hcd _ => pure ⟨?_, fun s hs => ?_⟩
  · exact htype.mono (Nat.le_trans hla hab) hcd
  · exact (hstreaming s hs).mono hla (Nat.le_trans hbc hcd)

theorem method : Locates source method := by
  intro lo
  unfold Parser.method
  refine bind (expectKeyword .kwRpc) fun start a _ hstart => ?_
  refine bind (ident a) fun name b hab hname => ?_
  refine bind methodType fun found c hbc hinput => ?_
  obtain ⟨clientStreaming, input⟩ := found
  refine bind (expectKeyword .kwReturns) fun _ d hcd _ => ?_
  refine bind methodType fun found e hde houtput => ?_
  obtain ⟨serverStreaming, output⟩ := found
  have ha := hstart.start_le
  -- What has been read so far lies between the first word and whatever comes last.
  have hend : ∀ {f g : Nat} {options : List OptionStatement} {stop : Span}, e ≤ f →
      stop.Within source ⟨f, g⟩ → (∀ o ∈ options, Lies source ⟨e, stop.stop⟩ o) →
      Lies source ⟨lo, g⟩
        (⟨name, input, output, options, clientStreaming, serverStreaming, start.through stop⟩ :
          Method) := by
    intro f g options stop hef hstop hoptions
    have hf := hstop.le_stop
    refine ⟨hstart.through hstop (by dsimp only; omega), ?_, ?_, ?_, ?_, ?_, ?_⟩
    · exact hname.between ha (by omega)
    · exact hinput.1.between (by omega) (by omega)
    · exact houtput.1.between (by omega) (by omega)
    · exact fun o ho => (hoptions o ho).between (by omega) (Nat.le_refl _)
    · exact fun s hs =>
        (hinput.2 s hs).mono (Nat.le_trans ha hab) (by dsimp only [Span.through]; omega)
    · exact fun s hs => (houtput.2 s hs).mono (by dsimp only [Span.through]; omega)
        (Nat.le_trans hef hf)
  refine peek fun t? => ?_
  split
  · refine bind (expectMark .semicolon) fun s f hef hs => pure ?_
    exact hend (Nat.le_refl e) hs fun o ho => (List.not_mem_nil ho).elim
  · refine bind (body methodMember) fun found f hef hfound => pure ?_
    exact hend (Nat.le_refl e) hfound.1 hfound.2.lies
  · exact bind (Q := fun _ _ => False) (unexpected _) fun _ _ _ h => h.elim

theorem serviceMember : Locates source serviceMember := by
  intro lo
  unfold Parser.serviceMember
  refine peekKeyword fun k? => ?_
  split
  · exact map (mono (optionStatement lo) fun hi o _ ho => ⟨ho.within, ho.nested⟩)
  · exact map (mono (method lo) fun hi m _ hm => ⟨hm.within, hm.nested⟩)
  · exact unexpected _

theorem service : Locates source service := by
  intro lo
  unfold Parser.service
  refine bind (expectKeyword .kwService) fun start a _ hstart => ?_
  refine bind (ident a) fun name b hab hname => ?_
  refine bind (body serviceMember) fun found c hbc hfound => ?_
  obtain ⟨members, stop⟩ := found
  obtain ⟨hstop, hmembers⟩ := hfound
  have hin := lies_members (Nat.le_trans hstart.start_le hab) hmembers
  refine pure ⟨hstart.through hstop hab, hname.between hstart.start_le hstop.le_stop, ?_, ?_⟩
  · refine lies_filterMap hin fun m o hget hm => ?_
    cases m with
    | option o' => cases hget; exact ⟨hm.within, hm.nested⟩
    | method m => cases hget
  · refine lies_filterMap hin fun m x hget hm => ?_
    cases m with
    | option o => cases hget
    | method m' => cases hget; exact ⟨hm.within, hm.nested⟩

/-! ### Messages -/

theorem messageMember {nested : Parser Message} (hn : Locates source nested) :
    Locates source (messageMember nested) := by
  intro lo
  unfold Parser.messageMember
  refine peekKeyword fun k? => ?_
  split
  · exact map (mono (hn lo) fun hi m _ hm => ⟨hm.within, hm.nested⟩)
  · exact map (mono (enum lo) fun hi e _ he => ⟨he.within, he.nested⟩)
  · exact map (mono (oneof lo) fun hi o _ ho => ⟨ho.within, ho.nested⟩)
  · exact map (mono (extend lo) fun hi e _ he => ⟨he.within, he.nested⟩)
  · exact map (mono (optionStatement lo) fun hi o _ ho => ⟨ho.within, ho.nested⟩)
  · exact map (mono (reservedStatement lo) fun hi r _ hr => ⟨hr.within, hr.nested⟩)
  · exact map (mono (extensionsStatement lo) fun hi e _ he => ⟨he.within, he.nested⟩)
  · have hfield : Traces source lo (fun hi m => Lies source ⟨lo, hi⟩ m)
        ((fun f => MessageMember.item (.field f)) <$> Parser.field) :=
      map (mono (field lo) fun hi f _ hf => ⟨hf.within, hf.nested⟩)
    refine peek fun t? => ?_
    split
    · exact hfield
    · exact hfield
    · exact unexpected _

theorem messageWithin (budget : List Lexeme) : Locates source (messageWithin budget) := by
  induction budget with
  | nil => exact fun lo => halt .exhausted
  | cons l budget ih =>
      intro lo
      unfold Parser.messageWithin
      refine bind (expectKeyword .kwMessage) fun start a _ hstart => ?_
      refine bind (ident a) fun name b hab hname => ?_
      refine bind (body (messageMember ih)) fun found c hbc hfound => ?_
      obtain ⟨members, stop⟩ := found
      obtain ⟨hstop, hmembers⟩ := hfound
      have hin := lies_members (Nat.le_trans hstart.start_le hab) hmembers
      -- Each list of the message is a selection of its members, and lies where they lie.
      refine pure ⟨hstart.through hstop hab, hname.between hstart.start_le hstop.le_stop,
        (MessageItem.allLie_iff _ _).mpr ?_, ?_, ?_, ?_⟩
      · refine lies_filterMap hin fun m i hget hm => ?_
        cases m with
        | item i' => cases hget; exact ⟨hm.within, hm.nested⟩
        | option o => cases hget
        | reserved r => cases hget
        | extensions e => cases hget
      · refine lies_filterMap hin fun m o hget hm => ?_
        cases m with
        | item i => cases hget
        | option o' => cases hget; exact ⟨hm.within, hm.nested⟩
        | reserved r => cases hget
        | extensions e => cases hget
      · refine lies_filterMap hin fun m r hget hm => ?_
        cases m with
        | item i => cases hget
        | option o => cases hget
        | reserved r' => cases hget; exact ⟨hm.within, hm.nested⟩
        | extensions e => cases hget
      · refine lies_filterMap hin fun m e hget hm => ?_
        cases m with
        | item i => cases hget
        | option o => cases hget
        | reserved r => cases hget
        | extensions e' => cases hget; exact ⟨hm.within, hm.nested⟩

theorem message : Locates source message :=
  fun lo inBody r hr => messageWithin r.lexemes lo inBody r hr

/-! ### Statements -/

theorem dialectStatement : Locates source dialectStatement := by
  intro lo
  unfold Parser.dialectStatement
  refine bind (expectKeyword .kwSyntax) fun start a _ hstart => ?_
  refine bind (expectMark .equals) fun _ b hab _ => ?_
  refine bind (stringLiteral b) fun value c hbc hvalue => ?_
  have hrest : Traces source c (fun hi st => Lies source ⟨lo, hi⟩ st) (do
      let stop ← Parser.expectMark .semicolon
      Pure.pure (Statement.dialect (Dialect.ofBytes? value.bytes) (start.through stop))) := by
    refine bind (Parser.Traces.expectMark .semicolon) fun stop d hcd hstop => pure ⟨?_, trivial⟩
    exact hstart.through hstop (Nat.le_trans hab hbc)
  dsimp only
  split
  · exact report (.one rfl hvalue.within.fits) hrest
  · exact hrest

theorem packageStatement : Locates source packageStatement := by
  intro lo
  unfold Parser.packageStatement
  refine bind (expectKeyword .kwPackage) fun start a _ hstart => ?_
  refine bind (dottedName _ a) fun name b hab hname => ?_
  refine bind (expectMark .semicolon) fun stop c _ hstop => pure ⟨hstart.through hstop hab, ?_⟩
  exact hname.between hstart.start_le hstop.le_stop

theorem importKind? : Traces source lo (fun hi kind => ∀ k ∈ kind, k.2.Within source ⟨lo, hi⟩)
    importKind? := by
  have hword : ∀ (k : Keyword) (kind : ImportKind), Traces source lo
      (fun hi kind => ∀ k ∈ kind, k.2.Within source ⟨lo, hi⟩)
      (Parser.expectKeyword k >>= fun s => Pure.pure (some (kind, s))) := by
    intro k kind
    refine bind (Parser.Traces.expectKeyword k) fun s a _ hs => pure fun p hp => ?_
    obtain rfl := Option.some.inj hp
    exact hs
  unfold Parser.importKind?
  refine peekKeyword fun k? => ?_
  split
  · exact hword _ _
  · exact hword _ _
  · refine peek fun t? => ?_
    split
    · exact pure fun k hk => by cases hk
    · exact unexpected _

theorem importStatement : Locates source importStatement := by
  intro lo
  unfold Parser.importStatement
  refine bind (expectKeyword .kwImport) fun start a _ hstart => ?_
  refine bind importKind? fun kind b hab hkind => ?_
  refine bind textLiteral fun path c hbc hpath => ?_
  have ha := hstart.start_le
  have hrest : Traces source c (fun hi i => Lies source ⟨lo, hi⟩ i) (do
      let stop ← Parser.expectMark .semicolon
      Pure.pure (⟨kind, path.text, path.span, start.through stop⟩ : Import)) := by
    refine bind (Parser.Traces.expectMark .semicolon) fun stop d hcd hstop => pure ⟨?_, ?_, ?_⟩
    · exact hstart.through hstop (Nat.le_trans hab hbc)
    · exact fun k hk => (hkind k hk).mono ha (Nat.le_trans hbc hstop.le_stop)
    · exact hpath.1.mono (Nat.le_trans ha hab) hstop.le_stop
  dsimp only
  split
  · exact report (.one rfl hpath.1.fits) hrest
  · exact hrest

theorem statement : Locates source statement := by
  intro lo
  unfold Parser.statement
  refine peekKeyword fun k? => ?_
  split
  · exact dialectStatement lo
  · exact map (mono (packageStatement lo) fun hi p _ hp => ⟨hp.within, hp.nested⟩)
  · exact map (mono (importStatement lo) fun hi i _ h => ⟨h.within, h.nested⟩)
  · exact map (mono (optionStatement lo) fun hi o _ ho => ⟨ho.within, ho.nested⟩)
  · exact map (mono (message lo) fun hi m _ hm => ⟨hm.within, hm.nested⟩)
  · exact map (mono (enum lo) fun hi e _ he => ⟨he.within, he.nested⟩)
  · exact map (mono (extend lo) fun hi e _ he => ⟨he.within, he.nested⟩)
  · exact map (mono (service lo) fun hi s _ hs => ⟨hs.within, hs.nested⟩)
  · exact unexpected _

end ProtoSchema.Parser.Traces
