/-
What is derived twice.

Every rule of the grammar derives from tokens that are retold what it derived from the
originals.  The proofs follow the rules: the parts look the same without their places, so the
nodes that are made of them do.  Only blocks need more than their tokens, as their text is kept.
Everything that may stand in a body or in a file is closed, as its last token is a semicolon
or a brace.
-/
import ProtoSchema.Proofs.Grammar.Language
import ProtoSchema.Proofs.Recovery.Retold
import ProtoSchema.Proofs.Rendering.RoundTrip

namespace ProtoSchema

open ProtoSchema.Parser (OneofMember EnumMember ServiceMember MessageMember)

/-- The tokens of a block, and its text. -/
theorem Retold.block_inv {source source' : List Char} {ls ls' : List Lexeme} {s t : Span}
    (h : Retold source source'
      (.token (.mark .leftBrace) s :: ls ++ [.token (.mark .rightBrace) t]) ls') :
    ∃ s' t' inner, ls' = .token (.mark .leftBrace) s' :: inner ++ [.token (.mark .rightBrace) t'] ∧
      Retold source source' ls inner ∧
      Text.slice source ⟨s.stop, t.start⟩ = Text.slice source' ⟨s'.stop, t'.start⟩ := by
  obtain ⟨es, hhere, rfl, hagree⟩ := h
  obtain ⟨front, last, rfl, hfront, hlast⟩ := List.map_eq_append_iff.mp hhere.symm
  obtain ⟨e, es, rfl, he, rfl⟩ := List.map_eq_cons_iff.mp hfront
  obtain ⟨e', last, rfl, he', hnil⟩ := List.map_eq_cons_iff.mp hlast
  obtain rfl := List.map_eq_nil_iff.mp hnil
  obtain ⟨token, here, there⟩ := e
  obtain ⟨token', here', there'⟩ := e'
  cases he
  cases he'
  obtain ⟨hfront, -, hcross⟩ := List.pairwise_append.mp hagree
  refine ⟨there, there', es.map Echo.copy, by rw [List.map_append]; rfl,
    ⟨es, rfl, rfl, hfront.of_cons⟩, ?_⟩
  exact hcross _ List.mem_cons_self _ (List.mem_singleton_self _) rfl rfl

namespace Rule.Retells

/-! ### Names and literals -/

theorem ident : Retells true Ident.bare ident ident := by
  refine token fun t s s' => ?_
  cases t <;> rfl

theorem dottedName : Retells false DottedName.bare dottedName dottedName := by
  refine Retells.ident.bind fun first first' hfirst => ?_
  refine (many ((mark .dot).bind fun _ _ _ => Retells.ident)).last fun rest rest' hrest => ?_
  rw [DottedName.bare, DottedName.bare, hfirst, hrest]

theorem typeName : Retells false TypeName.bare typeName typeName := by
  refine orElse ?_ ?_
  · refine (mark .dot).bind fun dot dot' _ => ?_
    refine dottedName.last fun name name' hname => ?_
    rw [TypeName.bare, TypeName.bare, hname]
    rfl
  · refine dottedName.last fun name name' hname => ?_
    rw [TypeName.bare, TypeName.bare, hname]

theorem integer : Retells false IntLiteral.bare integer integer := by
  refine (optional (mark .minus)).bind fun minus minus' hminus => ?_
  refine bind (b := Prod.fst) (token fun t s s' => ?_) ?_
  · cases t <;> rfl
  · rintro ⟨n, s⟩ ⟨n', s'⟩ hn
    obtain rfl : n' = n := hn
    cases minus with
    | none =>
        cases minus' with
        | none => exact pure rfl
        | some m => cases hminus
    | some m =>
        cases minus' with
        | none => cases hminus
        | some m' => exact pure rfl

theorem quoted : Retells true StringLiteral.bare (Rule.token Parser.quoted?) (Rule.token Parser.quoted?) := by
  refine token fun t s s' => ?_
  cases t <;> rfl

theorem bytes_eq_of_bare {s s' : StringLiteral} (h : s'.bare = s.bare) : s'.bytes = s.bytes :=
  (StringLiteral.mk.inj h).1

theorem stringLiteral : Retells false StringLiteral.bare stringLiteral stringLiteral := by
  refine quoted.bind fun first first' hfirst => ?_
  refine (many quoted).last fun rest rest' hrest => ?_
  have hflat (ss : List StringLiteral) :
      ss.flatMap StringLiteral.bytes = (ss.map StringLiteral.bare).flatMap StringLiteral.bytes := by
    rw [List.flatMap_map]
    rfl
  rw [StringLiteral.bare, StringLiteral.bare, bytes_eq_of_bare hfirst, hflat rest', hrest, ← hflat]

theorem text_eq_of_bare {n n' : Ident} (h : n'.bare = n.bare) : n'.text = n.text :=
  (Ident.mk.inj h).1

theorem textLiteral : Retells false Ident.bare textLiteral textLiteral := by
  refine stringLiteral.bind fun s s' hs => ?_
  rw [bytes_eq_of_bare hs]
  cases Utf8.decode? s.bytes with
  | some text => exact pure rfl
  | none => exact bind (remark (by rfl)) fun _ _ _ => pure rfl

/-! ### Options -/

theorem signedValue {minus minus' : Option Span} (hm : bareSpan minus' = bareSpan minus) :
    Retells false OptionValue.bare (signedValue minus) (signedValue minus') := by
  have hsome : minus'.isSome = minus.isSome := by
    have h := congrArg Option.isSome hm
    rwa [bareSpan, bareSpan, Option.isSome_map, Option.isSome_map] at h
  refine bind (b := OptionValue.bare) (token fun t s s' => ?_) fun value value' hvalue => ?_
  · rw [hsome]
    cases t <;> rfl
  · have hpure : Retells false OptionValue.bare (Pure.pure value) (Pure.pure value') :=
      pure hvalue
    cases value with
    | ident negative name s =>
        cases value' with
        | ident negative' name' s' =>
            obtain ⟨rfl, hname, -⟩ := OptionValue.ident.inj hvalue
            cases negative' with
            | false => exact hpure
            | true =>
                dsimp only
                rw [text_eq_of_bare hname]
                by_cases h : Parser.isNegatable name.text = true
                · rw [if_pos h, if_pos h]
                  exact hpure
                · rw [if_neg h, if_neg h]
                  exact bind (remark (by rfl)) fun _ _ _ => hpure
        | _ => cases hvalue
    | int n =>
        cases value' with
        | int n' => exact hpure
        | _ => cases hvalue
    | float x s =>
        cases value' with
        | float x' s' => exact hpure
        | _ => cases hvalue
    | string s =>
        cases value' with
        | string s' => exact hpure
        | _ => cases hvalue
    | aggregate text s =>
        cases value' with
        | aggregate text' s' => exact hpure
        | _ => cases hvalue

theorem aggregate : Retells true OptionValue.bare aggregate aggregate := by
  rintro source source' _ _ _ _ ⟨opening, _, _, _, hopen, ⟨closing, _, _, _,
    ⟨_, _, mid, _, ⟨hbalanced, rfl⟩, hclose, rfl⟩, ⟨_, _, rest, _, ⟨rfl, rfl, rfl⟩,
    ⟨rfl, rfl, rfl⟩, rfl⟩, rfl⟩, rfl⟩
  obtain ⟨rfl, rfl⟩ := mark_iff.mp hopen
  obtain ⟨rfl, rfl⟩ := mark_iff.mp hclose
  obtain ⟨front, rfl, hfront⟩ := balanced source source' hbalanced
  refine ⟨.token (.mark .leftBrace) opening :: front ++ [.token (.mark .rightBrace) closing],
    by simp, nofun, fun front' rest' hretold _ => ?_⟩
  obtain ⟨s', t', inner, rfl, hinner, htext⟩ := hretold.block_inv
  have htokens : .token (.mark .leftBrace) s' :: inner ++ [.token (.mark .rightBrace) t'] ++ rest' =
      .token (.mark .leftBrace) s' :: (inner ++ .token (.mark .rightBrace) t' :: rest') := by
    rw [List.cons_append, List.cons_append, List.append_assoc]
    rfl
  have hend : blockEnd source' (inner ++ .token (.mark .rightBrace) t' :: rest') t' [] rest' :=
    ⟨(), [], _, [], ⟨hfront inner _ hinner, rfl⟩, mark_iff.mpr ⟨rfl, rfl⟩, rfl⟩
  rw [htokens]
  refine ⟨_, [], ⟨s', [], _, [], mark_iff.mpr ⟨rfl, rfl⟩, ⟨t', [], rest', [], hend,
    ⟨_, [], rest', [], ⟨rfl, rfl, rfl⟩, ⟨rfl, rfl, rfl⟩, rfl⟩, rfl⟩, rfl⟩, ?_, .refl []⟩
  rw [OptionValue.bare, OptionValue.bare, htext]

theorem optionValue : Retells false OptionValue.bare optionValue optionValue := by
  refine orElse (signedValue rfl) (orElse ?_ (orElse ?_ (orElse ?_ aggregate.opened)))
  · exact (mark .plus).bind fun _ _ _ => signedValue rfl
  · exact (mark .minus).bind fun minus minus' _ => signedValue rfl
  · exact last stringLiteral fun s s' hs => congrArg OptionValue.string hs

theorem optionNamePart : Retells false OptionNamePart.bare optionNamePart optionNamePart := by
  refine orElse ?_ ?_
  · refine (mark .leftParen).bind fun opening opening' _ => ?_
    refine bind typeName fun name name' hname => ?_
    refine ((mark .rightParen).last fun closing closing' _ => ?_).opened
    rw [OptionNamePart.bare, OptionNamePart.bare, hname]
  · refine (Retells.ident.last fun name name' hname => ?_).opened
    exact congrArg OptionNamePart.ident hname

theorem optionSetting : Retells false OptionSetting.bare optionSetting optionSetting := by
  refine bind optionNamePart fun first first' hfirst => ?_
  refine (many ((mark .dot).bind fun _ _ _ => optionNamePart)).bind fun rest rest' hrest => ?_
  refine (mark .equals).bind fun _ _ _ => ?_
  refine last optionValue fun value value' hvalue => ?_
  rw [OptionSetting.bare, OptionSetting.bare, hfirst, hrest, hvalue]

theorem optionStatement : Retells true OptionStatement.bare optionStatement optionStatement := by
  refine (keyword .kwOption).bind fun start start' _ => ?_
  refine bind optionSetting fun setting setting' hsetting => ?_
  refine (mark .semicolon).last fun stop stop' _ => ?_
  rw [OptionStatement.bare, OptionStatement.bare, hsetting]

theorem optionList : Retells false OptionList.bare optionList optionList := by
  refine (mark .leftBracket).bind fun opening opening' _ => ?_
  refine (separated optionSetting).bind fun settings settings' hsettings => ?_
  refine ((mark .rightBracket).last fun closing closing' _ => ?_).opened
  rw [OptionList.bare, OptionList.bare, hsettings]

/-! ### Fields -/

theorem label? : Retells false bareWord label? label? := by
  refine token? (b := fun w : Label × Span => (w.1, (default : Span))) fun t s s' => ?_
  cases t with
  | ident word => simp [Function.comp_def]
  | _ => rfl

theorem typeUse : Retells false (fun ts : TypeUse × Span => ts.1.bare) typeUse typeUse := by
  refine (token? (b := Prod.fst) fun t s s' => ?_).bind fun found found' hfound => ?_
  · cases t with
    | ident word => simp [Function.comp_def]
    | _ => rfl
  · cases found with
    | none =>
        cases found' with
        | none => exact last typeName fun name name' hname => congrArg TypeUse.named hname
        | some w => cases hfound
    | some w =>
        cases found' with
        | none => cases hfound
        | some w' => exact pure (congrArg TypeUse.scalar (Option.some.inj hfound))

theorem keyword? (k : Keyword) : Retells false bareSpan (keyword? k) (keyword? k) := by
  refine token? (b := fun _ => (default : Span)) fun t s s' => ?_
  split <;> rfl

theorem fieldKind : Retells false FieldKind.bare fieldKind fieldKind := by
  refine (keyword? .kwMap).bind fun found found' hfound => ?_
  cases found with
  | none =>
      cases found' with
      | none =>
          refine last typeUse ?_
          rintro ⟨type, s⟩ ⟨type', s'⟩ htype
          exact congrArg (FieldKind.plain · default) htype
      | some s => cases hfound
  | some start =>
      cases found' with
      | none => cases hfound
      | some start' =>
          refine (mark .leftAngle).bind fun _ _ _ => ?_
          refine bind typeUse ?_
          rintro ⟨key, s⟩ ⟨key', s'⟩ hkey
          refine (mark .comma).bind fun _ _ _ => ?_
          refine bind typeUse ?_
          rintro ⟨value, t⟩ ⟨value', t'⟩ hvalue
          refine ((mark .rightAngle).last fun stop stop' _ => ?_).opened
          dsimp only at hkey hvalue
          rw [FieldKind.bare, FieldKind.bare, hkey, hvalue]

theorem field : Retells true Field.bare field field := by
  refine bind label? fun label label' hlabel => ?_
  refine bind fieldKind fun kind kind' hkind => ?_
  refine Retells.ident.bind fun name name' hname => ?_
  refine (mark .equals).bind fun _ _ _ => ?_
  refine bind integer fun number number' hnumber => ?_
  refine (optional optionList).bind fun options options' hoptions => ?_
  refine (mark .semicolon).last fun stop stop' _ => ?_
  rw [Field.bare, Field.bare, hlabel, hkind, hname, hnumber, hoptions]

/-! ### Ranges and reservations -/

theorem numberRange : Retells false NumberRange.bare numberRange numberRange := by
  refine bind integer fun start start' hstart => ?_
  refine orElse ?_ (pure ?_)
  · refine (keyword .kwTo).bind fun _ _ _ => orElse ?_ ?_
    · refine ((keyword .kwMax).last fun s s' _ => ?_).opened
      rw [NumberRange.bare, NumberRange.bare, hstart]
      rfl
    · refine last integer fun stop stop' hstop => ?_
      rw [NumberRange.bare, NumberRange.bare, hstart, RangeEnd.bare, RangeEnd.bare, hstop]
  · rw [NumberRange.bare, NumberRange.bare, hstart]

theorem reservedName : Retells false Ident.bare reservedName reservedName :=
  orElse Retells.ident.opened textLiteral

theorem reservedStatement : Retells true Reserved.bare reservedStatement reservedStatement := by
  have hranges : Retells false ReservedKind.bare (.ranges <$> Rule.separated Rule.numberRange)
      (.ranges <$> Rule.separated Rule.numberRange) :=
    (separated numberRange).map fun ranges ranges' h => congrArg ReservedKind.ranges h
  have hnames : Retells false ReservedKind.bare (.names <$> Rule.separated Rule.reservedName)
      (.names <$> Rule.separated Rule.reservedName) :=
    (separated reservedName).map fun names names' h => congrArg ReservedKind.names h
  refine (keyword .kwReserved).bind fun start start' _ => ?_
  refine (orElse hranges hnames).bind fun kind kind' hkind => ?_
  refine (mark .semicolon).last fun stop stop' _ => ?_
  rw [Reserved.bare, Reserved.bare, hkind]

theorem extensionsStatement :
    Retells true Extensions.bare extensionsStatement extensionsStatement := by
  refine (keyword .kwExtensions).bind fun start start' _ => ?_
  refine (separated numberRange).bind fun ranges ranges' hranges => ?_
  refine (optional optionList).bind fun options options' hoptions => ?_
  refine (mark .semicolon).last fun stop stop' _ => ?_
  rw [Extensions.bare, Extensions.bare, hranges, hoptions]

/-! ### Oneofs, extensions and enums -/

theorem oneofMember : Retells true OneofMember.bare oneofMember oneofMember := by
  refine switch (fun k R h => ?_) ?_
  · simp only [List.mem_cons, Prod.mk.injEq, List.not_mem_nil, or_false] at h
    obtain ⟨rfl, rfl⟩ := h
    exact map optionStatement fun o o' ho => congrArg OneofMember.option ho
  · exact map field fun f f' hf => congrArg OneofMember.field hf

theorem oneof : Retells true Oneof.bare oneof oneof := by
  refine (keyword .kwOneof).bind fun start start' _ => ?_
  refine Retells.ident.bind fun name name' hname => ?_
  refine (body oneofMember).last ?_
  rintro ⟨members, stop⟩ ⟨members', stop'⟩ hmembers
  rw [Oneof.bare, Oneof.bare, hname,
    gather_eq OptionStatement.bare OneofMember.option? (fun m => by cases m <;> rfl) hmembers,
    gather_eq Field.bare OneofMember.field? (fun m => by cases m <;> rfl) hmembers]

theorem extend : Retells true Extend.bare extend extend := by
  refine (keyword .kwExtend).bind fun start start' _ => ?_
  refine bind typeName fun extendee extendee' hextendee => ?_
  refine (body field).last ?_
  rintro ⟨fields, stop⟩ ⟨fields', stop'⟩ hfields
  dsimp only at hfields
  rw [Extend.bare, Extend.bare, hextendee, hfields]

theorem enumValue : Retells true EnumValue.bare enumValue enumValue := by
  refine Retells.ident.bind fun name name' hname => ?_
  refine (mark .equals).bind fun _ _ _ => ?_
  refine bind integer fun number number' hnumber => ?_
  refine (optional optionList).bind fun options options' hoptions => ?_
  refine (mark .semicolon).last fun stop stop' _ => ?_
  rw [EnumValue.bare, EnumValue.bare, hname, hnumber, hoptions]

theorem enumMember : Retells true EnumMember.bare enumMember enumMember := by
  refine switch (fun k R h => ?_) ?_
  · simp only [List.mem_cons, Prod.mk.injEq, List.not_mem_nil, or_false] at h
    rcases h with ⟨rfl, rfl⟩ | ⟨rfl, rfl⟩
    · exact map optionStatement fun o o' ho => congrArg EnumMember.option ho
    · exact map reservedStatement fun r r' hr => congrArg EnumMember.reserved hr
  · exact map enumValue fun v v' hv => congrArg EnumMember.value hv

theorem enum : Retells true Enum.bare enum enum := by
  refine (keyword .kwEnum).bind fun start start' _ => ?_
  refine Retells.ident.bind fun name name' hname => ?_
  refine (body enumMember).last ?_
  rintro ⟨members, stop⟩ ⟨members', stop'⟩ hmembers
  rw [Enum.bare, Enum.bare, hname,
    gather_eq OptionStatement.bare EnumMember.option? (fun m => by cases m <;> rfl) hmembers,
    gather_eq EnumValue.bare EnumMember.value? (fun m => by cases m <;> rfl) hmembers,
    gather_eq Reserved.bare EnumMember.reserved? (fun m => by cases m <;> rfl) hmembers]

/-! ### Services -/

theorem methodType : Retells false (fun found : Option Span × TypeName =>
    (bareSpan found.1, found.2.bare)) methodType methodType := by
  refine (mark .leftParen).bind fun _ _ _ => ?_
  refine (keyword? .kwStream).bind fun streaming streaming' hstreaming => ?_
  refine bind typeName fun type type' htype => ?_
  refine ((mark .rightParen).last fun _ _ _ => ?_).opened
  rw [hstreaming, htype]

theorem methodEnd : Retells true
    (fun found : List OptionStatement × Span => found.1.map OptionStatement.bare)
    methodEnd methodEnd :=
  orElse ((mark .semicolon).last fun _ _ _ => rfl) (body optionStatement)

theorem method : Retells true Method.bare method method := by
  refine (keyword .kwRpc).bind fun start start' _ => ?_
  refine Retells.ident.bind fun name name' hname => ?_
  refine bind methodType ?_
  rintro ⟨clientStreaming, input⟩ ⟨clientStreaming', input'⟩ hclient
  obtain ⟨hclient, hinput⟩ := Prod.mk.inj hclient
  refine (keyword .kwReturns).bind fun _ _ _ => ?_
  refine bind methodType ?_
  rintro ⟨serverStreaming, output⟩ ⟨serverStreaming', output'⟩ hserver
  obtain ⟨hserver, houtput⟩ := Prod.mk.inj hserver
  refine last methodEnd ?_
  rintro ⟨options, stop⟩ ⟨options', stop'⟩ hoptions
  dsimp only at hclient hinput hserver houtput hoptions
  rw [Method.bare, Method.bare, hname, hinput, houtput, hoptions, hclient, hserver]

theorem serviceMember : Retells true ServiceMember.bare serviceMember serviceMember := by
  refine switch (fun k R h => ?_) fail
  simp only [List.mem_cons, Prod.mk.injEq, List.not_mem_nil, or_false] at h
  rcases h with ⟨rfl, rfl⟩ | ⟨rfl, rfl⟩
  · exact map optionStatement fun o o' ho => congrArg ServiceMember.option ho
  · exact map method fun m m' hm => congrArg ServiceMember.method hm

theorem service : Retells true Service.bare service service := by
  refine (keyword .kwService).bind fun start start' _ => ?_
  refine Retells.ident.bind fun name name' hname => ?_
  refine (body serviceMember).last ?_
  rintro ⟨members, stop⟩ ⟨members', stop'⟩ hmembers
  rw [Service.bare, Service.bare, hname,
    gather_eq OptionStatement.bare ServiceMember.option? (fun m => by cases m <;> rfl) hmembers,
    gather_eq Method.bare ServiceMember.method? (fun m => by cases m <;> rfl) hmembers]

/-! ### Messages -/

theorem messageMember {nested : Rule Message} (hn : Retells true Message.bare nested nested) :
    Retells true MessageMember.bare (messageMember nested) (messageMember nested) := by
  have hitem {i i' : MessageItem} (h : i'.bare = i.bare) :
      (MessageMember.item i').bare = (MessageMember.item i).bare :=
    congrArg MessageMember.item h
  refine switch (fun k R h => ?_) (map field fun f f' hf => hitem ?_)
  · simp only [List.mem_cons, Prod.mk.injEq, List.not_mem_nil, or_false] at h
    rcases h with ⟨rfl, rfl⟩ | ⟨rfl, rfl⟩ | ⟨rfl, rfl⟩ | ⟨rfl, rfl⟩ | ⟨rfl, rfl⟩ | ⟨rfl, rfl⟩ |
      ⟨rfl, rfl⟩
    · refine hn.map fun m m' hm => hitem ?_
      rw [MessageItem.bare, MessageItem.bare, hm]
    · refine map enum fun e e' he => hitem ?_
      rw [MessageItem.bare, MessageItem.bare, he]
    · refine map oneof fun o o' ho => hitem ?_
      rw [MessageItem.bare, MessageItem.bare, ho]
    · refine map extend fun e e' he => hitem ?_
      rw [MessageItem.bare, MessageItem.bare, he]
    · exact map optionStatement fun o o' ho => congrArg MessageMember.option ho
    · exact map reservedStatement fun r r' hr => congrArg MessageMember.reserved hr
    · exact map extensionsStatement fun e e' he => congrArg MessageMember.extensions he
  · rw [MessageItem.bare, MessageItem.bare, hf]

theorem messageUpTo (depth : Nat) :
    Retells true Message.bare (messageUpTo depth) (messageUpTo depth) := by
  induction depth with
  | zero => exact fail
  | succ depth ih =>
      refine (keyword .kwMessage).bind fun start start' _ => ?_
      refine Retells.ident.bind fun name name' hname => ?_
      refine (body (messageMember ih)).last ?_
      rintro ⟨members, stop⟩ ⟨members', stop'⟩ hmembers
      rw [Message.bare, Message.bare, MessageItem.bareAll_eq, MessageItem.bareAll_eq, hname,
        gather_eq MessageItem.bare MessageMember.item? (fun m => by cases m <;> rfl) hmembers,
        gather_eq OptionStatement.bare MessageMember.option? (fun m => by cases m <;> rfl) hmembers,
        gather_eq Reserved.bare MessageMember.reserved? (fun m => by cases m <;> rfl) hmembers,
        gather_eq Extensions.bare MessageMember.extensions? (fun m => by cases m <;> rfl) hmembers]

theorem message : Retells true Message.bare message message := by
  rintro source source' ls m ds rest ⟨depth, h⟩
  obtain ⟨front, rfl, hne, hfront⟩ := messageUpTo depth source source' _ _ _ _ h
  refine ⟨front, rfl, hne, fun front' rest' hretold hrest => ?_⟩
  obtain ⟨m', ds', hm', hbare, hds⟩ := hfront front' rest' hretold hrest
  exact ⟨m', ds', ⟨depth, hm'⟩, hbare, hds⟩

/-! ### Statements -/

theorem dialectStatement : Retells true Statement.bare dialectStatement dialectStatement := by
  refine (keyword .kwSyntax).bind fun start start' _ => ?_
  refine (mark .equals).bind fun _ _ _ => ?_
  refine bind stringLiteral fun value value' hvalue => ?_
  dsimp only
  rw [bytes_eq_of_bare hvalue]
  have hstop : Retells true Statement.bare
      (Rule.mark .semicolon >>= fun stop =>
        Pure.pure (.dialect (Dialect.ofBytes? value.bytes) (start.through stop)))
      (Rule.mark .semicolon >>= fun stop =>
        Pure.pure (.dialect (Dialect.ofBytes? value.bytes) (start'.through stop))) :=
    (mark .semicolon).last fun stop stop' _ => rfl
  by_cases h : (Dialect.ofBytes? value.bytes).isNone = true
  · rw [if_pos h, if_pos h]
    exact bind (remark (by rfl)) fun _ _ _ => hstop
  · rw [if_neg h, if_neg h]
    exact hstop

theorem packageStatement : Retells true Package.bare packageStatement packageStatement := by
  refine (keyword .kwPackage).bind fun start start' _ => ?_
  refine bind dottedName fun name name' hname => ?_
  refine (mark .semicolon).last fun stop stop' _ => ?_
  rw [Package.bare, Package.bare, hname]

theorem importKind : Retells false (fun k : ImportKind × Span => (k.1, (default : Span)))
    importKind importKind := by
  refine orElse ?_ ?_
  · refine ((keyword .kwWeak).last fun s s' _ => ?_).opened
    rfl
  · refine ((keyword .kwPublic).last fun s s' _ => ?_).opened
    rfl

theorem importStatement : Retells true Import.bare importStatement importStatement := by
  refine (keyword .kwImport).bind fun start start' _ => ?_
  refine (optional importKind).bind fun kind kind' hkind => ?_
  refine bind textLiteral fun path path' hpath => ?_
  have hstop : Retells true Import.bare
      (Rule.mark .semicolon >>= fun stop =>
        Pure.pure ⟨kind, path.text, path.span, start.through stop⟩)
      (Rule.mark .semicolon >>= fun stop =>
        Pure.pure ⟨kind', path'.text, path'.span, start'.through stop⟩) := by
    refine (mark .semicolon).last fun stop stop' _ => ?_
    rw [Import.bare, Import.bare, bareWord, bareWord, hkind, text_eq_of_bare hpath]
  dsimp only
  rw [text_eq_of_bare hpath] at hstop ⊢
  split
  · exact bind (remark (by rfl)) fun _ _ _ => hstop
  · exact hstop

theorem statement : Retells true Statement.bare statement statement := by
  refine switch (fun k R h => ?_) fail
  simp only [List.mem_cons, Prod.mk.injEq, List.not_mem_nil, or_false] at h
  rcases h with ⟨rfl, rfl⟩ | ⟨rfl, rfl⟩ | ⟨rfl, rfl⟩ | ⟨rfl, rfl⟩ | ⟨rfl, rfl⟩ | ⟨rfl, rfl⟩ |
    ⟨rfl, rfl⟩ | ⟨rfl, rfl⟩
  · exact dialectStatement
  · exact map packageStatement fun p p' hp => congrArg Statement.package hp
  · exact map importStatement fun i i' hi => congrArg Statement.dependency hi
  · exact map optionStatement fun o o' ho => congrArg Statement.option ho
  · exact map message fun m m' hm => congrArg Statement.message hm
  · exact map enum fun e e' he => congrArg Statement.enum he
  · exact map extend fun e e' he => congrArg Statement.extend he
  · exact map service fun s s' hs => congrArg Statement.service hs

end Rule.Retells

end ProtoSchema
