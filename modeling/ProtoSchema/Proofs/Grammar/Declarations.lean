/-
Declarations: what their parsers mean.

Every declaration ends with a semicolon or a brace, so it may stand before anything.  The
parts in it may not: a type ends where a word or a mark begins that is no dot, a list where
no comma follows, and a number may be the start of a range.
-/
import ProtoSchema.Proofs.Grammar.Expressions
import ProtoSchema.Proofs.Parsing.Productions

namespace ProtoSchema

namespace Rule.Opens

variable {G : Follow}

theorem typeUse : Opens (among Token.startsType) G typeUse := by
  refine token? (fun t s a h => ?_) (first typeName)
  split at h
  · rfl
  · cases h

theorem field : Opens (among Token.startsType) G field := by
  refine token? (fun t s a h => ?_) (first (token? (fun t s a h => ?_) (first typeUse)))
  · split at h
    · rfl
    · cases h
  · split at h
    · rename_i ht
      rw [ht]
      rfl
    · cases h

theorem numberRange : Opens (among Token.startsInteger) G numberRange := first integer

theorem separated {α : Type} {R : Rule α} {F : Follow} (hR : Opens F ProtoSchema.anything R) :
    Opens F G (separated R) := first hR

theorem reservedName : Opens (among fun t => t.isWord || t.isString) G reservedName := by
  refine orElse (ident.mono fun t? h => ?_) (textLiteral.mono fun t? h => ?_)
  · cases t? with
    | none => exact h
    | some t => exact Bool.or_eq_true_iff.mpr (Or.inl h)
  · cases t? with
    | none => exact h
    | some t => exact Bool.or_eq_true_iff.mpr (Or.inr h)

/-- Whatever starts like the name of a type may start a member. -/
theorem startsMember {α : Type} {R : Rule α} (hR : Opens (among Token.startsType) G R) :
    Opens Parser.startsMember G R := by
  refine hR.mono fun t? h => ?_
  cases t? with
  | none => cases h
  | some t =>
      refine ⟨t, rfl, fun hs => ?_, fun hr => ?_⟩
      · rw [hs] at h
        cases h
      · rw [hr] at h
        cases h

/-- A word may start a member. -/
theorem startsMember_word (w : String) : Parser.startsMember (some (.ident w)) :=
  ⟨.ident w, rfl, nofun, nofun⟩

theorem optionStatement : Opens Parser.startsMember G optionStatement :=
  first (keyword (startsMember_word _))

theorem oneofMember : Opens Parser.startsMember G oneofMember :=
  switch startsMember_word (startsMember (field.map _))

theorem enumMember : Opens Parser.startsMember G enumMember := by
  refine switch startsMember_word (map _ (first (ident.mono fun t? h => ?_)))
  cases t? with
  | none => cases h
  | some t =>
      cases t with
      | ident w => exact startsMember_word w
      | _ => cases h

theorem serviceMember : Opens Parser.startsMember G serviceMember := by
  refine switch startsMember_word ?_
  rintro source ls a ds rest ⟨⟩

theorem messageMember (nested : Rule Message) :
    Opens Parser.startsMember G (messageMember nested) :=
  switch startsMember_word (startsMember (field.map _))

theorem statement : Opens Parser.startsMember G statement := by
  refine switch startsMember_word ?_
  rintro source ls a ds rest ⟨⟩

end Rule.Opens

namespace Parser.Means

open Rule (Opens)

variable {α β : Type} {F G : Follow}

/-! ### Fields -/

theorem typeUse {stop : Terminator} (hstop : stop.admits (.mark .dot) = false) :
    Means (among stop.admits) (typeUse stop) Rule.typeUse := by
  refine (accept? _).seq fun found => ?_
  cases found with
  | some ts => exact pure _
  | none => exact (typeName hstop).bind (fun name => pure _) fun name => .pure _ fun _ h => h

theorem fieldKind : Means (among Terminator.word.admits) fieldKind Rule.fieldKind := by
  refine (accept? _).seq fun found => ?_
  cases found with
  | some start =>
      refine (expectMark _).seq fun _ => ?_
      refine (typeUse rfl).bind (fun key => ?_) fun key => .first (.mark rfl)
      refine (expectMark _).seq fun _ => ?_
      refine (typeUse rfl).bind (fun value => ?_) fun value => .first (.mark rfl)
      exact (expectMark _).seq fun stop => pure _
  | none => exact (typeUse rfl).bind (fun ts => pure _) fun ts => .pure _ fun _ h => h

theorem field : Means F field Rule.field := by
  refine (accept? _).seq fun label => ?_
  refine fieldKind.bind (fun kind => ?_) fun kind => .first (.mono .ident fun t? h => ?_)
  · refine ident.seq fun name => ?_
    refine (expectMark _).seq fun _ => ?_
    refine integer.seq fun number => ?_
    refine optionList?.bind (fun options => ?_) fun options => .first (.mark nofun)
    exact (expectMark _).seq fun stop => pure _
  · cases t? with
    | none => exact h
    | some t => cases t <;> first | rfl | cases h

/-! ### Ranges and reservations -/

theorem numberRange : Means (· ≠ some (.ident Keyword.kwTo.text)) numberRange Rule.numberRange := by
  refine integer.seq fun start => ?_
  refine acceptElse (fun _ => ?_) (pure _) (.pure _ fun t? h t s ht => if_neg fun hto => ?_)
  · refine acceptElse (fun s => pure _) ?_ ?_
    · refine peek fun t? => ?_
      have hnumber : Opens (among Token.startsInteger) (· ≠ some (.ident Keyword.kwTo.text)) (do
          let stop ← Rule.integer
          Pure.pure (⟨start, .to stop⟩ : NumberRange)) := .first .integer
      cases t? with
      | none => exact .never (unexpected _) (hnumber.excludes rfl)
      | some t =>
          cases t with
          | int n => exact .always (integer.seq fun stop => pure _)
          | mark p =>
              cases p with
              | minus => exact .always (integer.seq fun stop => pure _)
              | _ => exact .never (unexpected _) (hnumber.excludes rfl)
          | _ => exact .never (unexpected _) (hnumber.excludes rfl)
    · refine .lacks (.first .integer) fun t s ht => if_neg fun hmax => ?_
      rw [hmax] at ht
      cases ht
  · exact h (by rw [ht, hto])

/-- What the items of a list between commas may be followed by. -/
theorem separated {item : Parser α} {I : Rule α} (hi : Means F item I) (hG : ∀ t?, G t? → F t?)
    (hF : F (some (.mark .comma))) (hcomma : ¬ G (some (.mark .comma))) :
    Means G (separated item) (Rule.separated I) := by
  have h : Means G (Parser.separated item) (Rule.separated I >>= Pure.pure) :=
    commas (K := Pure.pure) hi (fun _ => rfl) (pure _) hG hF hcomma (fun as => pure as)
      fun as => .pure as fun _ h => h
  rw [bind_pure] at h
  exact h

theorem reservedName : Means (lacking quoted?) reservedName Rule.reservedName := by
  refine peek fun t? => ?_
  split
  · exact .left (.always ident) (Opens.textLiteral.excludes rfl)
  · rename_i hident
    refine .right (Opens.ident.excludes ?_) (.always textLiteral)
    cases t? with
    | none => rfl
    | some t =>
        cases t with
        | ident w => exact absurd rfl (hident w)
        | _ => rfl

theorem reservedStatement : Means F reservedStatement Rule.reservedStatement := by
  refine (expectKeyword _).seq fun start => ?_
  let stopRule (kind : ReservedKind) : Rule Reserved := do
    let stop ← Rule.mark .semicolon
    Pure.pure ⟨kind, start.through stop⟩
  have hstop (kind : ReservedKind) : Means F (do
      let stop ← Parser.expectMark .semicolon
      Pure.pure (⟨kind, start.through stop⟩ : Reserved)) (stopRule kind) :=
    (expectMark _).seq fun stop => pure _
  have hranges := (separated (G := (· = some (.mark .semicolon))) numberRange
    (by rintro t? rfl; exact nofun) nofun nofun).bind
    (fun ranges => hstop (.ranges ranges)) fun ranges => .first (.mark rfl)
  have hnames := (separated (G := (· = some (.mark .semicolon))) reservedName
    (by rintro t? rfl; exact lacking_some fun s => rfl) (lacking_some fun s => rfl) nofun).bind
    (fun names => hstop (.names names)) fun names => .first (.mark rfl)
  -- The two forms start with different tokens, so the one at hand decides between them.
  have hnumbers : Opens (among Token.startsInteger) F
      (Rule.separated Rule.numberRange >>= fun ranges => stopRule (.ranges ranges)) :=
    .first (.separated .numberRange)
  have hwords : Opens (among fun t => t.isWord || t.isString) F
      (Rule.separated Rule.reservedName >>= fun names => stopRule (.names names)) :=
    .first (.separated .reservedName)
  refine congr (R := (Rule.separated Rule.numberRange >>= fun ranges => stopRule (.ranges ranges)) <|>
    (Rule.separated Rule.reservedName >>= fun names => stopRule (.names names)))
    (peek fun t? => ?_) fun source ls a ds rest => ?_
  · have hnever {t? : Option Token} (hn : t?.any Token.startsInteger = false)
        (hw : t?.any (fun t => t.isWord || t.isString) = false) :
        Branch F t? (Parser.unexpected .reservation) _ :=
      .never (unexpected _) (.orElse (hnumbers.excludes hn) (hwords.excludes hw))
    cases t? with
    | none =>
        dsimp only
        rw [unexpected_bind]
        exact hnever rfl rfl
    | some t =>
        cases t with
        | int n => exact .left (.always hranges) (hwords.excludes rfl)
        | string b => exact .right (hnumbers.excludes rfl) (.always hnames)
        | ident w => exact .right (hnumbers.excludes rfl) (.always hnames)
        | float x =>
            dsimp only
            rw [unexpected_bind]
            exact hnever rfl rfl
        | mark p =>
            cases p with
            | minus => exact .left (.always hranges) (hwords.excludes rfl)
            | _ =>
                dsimp only
                rw [unexpected_bind]
                exact hnever rfl rfl
  · rw [Rule.orElse_bind_iff, bind_map_left, bind_map_left]

theorem extensionsStatement : Means F extensionsStatement Rule.extensionsStatement := by
  refine (expectKeyword _).seq fun start => ?_
  refine bind (F := fun t? => t? = some (.mark .semicolon) ∨ t? = some (.mark .leftBracket))
    (separated numberRange ?_ nofun ?_) (fun ranges => ?_) fun ranges => ?_
  · rintro t? (rfl | rfl) <;> exact nofun
  · rintro (h | h) <;> cases h
  · refine optionList?.bind (fun options => ?_) fun options => .first (.mark nofun)
    exact (expectMark _).seq fun stop => pure _
  · exact .optional (.first (.mark (Or.inr rfl))) (.first (.mark (Or.inl rfl)))

/-! ### Oneofs, extensions and enums -/

/-- A member that is a field, where its first token is looked at once more. -/
theorem fieldMember {p : Parser α} {R : Rule α} {kind : BodyKind} (hp : Means F p R)
    (hR : Opens (among Token.startsType) F R) :
    Means F (Parser.peek >>= fun t? => match t? with
      | some (.ident _) | some (.mark .dot) => p
      | _ => Parser.unexpected (.member kind)) R := by
  refine peek fun t? => ?_
  split
  · exact .always hp
  · exact .always hp
  · rename_i hident hdot
    refine .never (unexpected _) (hR.excludes ?_)
    cases t? with
    | none => rfl
    | some t =>
        cases t with
        | ident w => exact absurd rfl (hident w)
        | mark p => cases p <;> first | rfl | exact absurd rfl hdot
        | _ => rfl

theorem oneofMember : Means F oneofMember Rule.oneofMember := by
  refine switch (fun k R h => ?_) fun k? hk => ?_
  · obtain ⟨rfl, rfl⟩ : k = .kwOption ∧ R = _ := by simpa using h
    exact optionStatement.map _
  · split
    · exact absurd (by simp) (hk .kwOption rfl)
    · exact fieldMember (field.map _) (Opens.field.map _)

theorem oneof : Means F oneof Rule.oneof := by
  refine (expectKeyword _).seq fun start => ?_
  refine ident.seq fun name => ?_
  exact (body _ oneofMember (Orderly.oneofMember (n := 0)) .oneofMember).seq fun members => pure _

theorem extendMember : Means F extendMember Rule.field := fieldMember field .field

theorem extend : Means F extend Rule.extend := by
  refine (expectKeyword _).seq fun start => ?_
  refine (typeName rfl).bind (fun extendee => ?_) fun extendee => .first (.first (.mark rfl))
  exact (body _ extendMember (Orderly.extendMember (n := 0)) (.startsMember .field)).seq fun fields => pure _

theorem enumValue : Means F enumValue Rule.enumValue := by
  refine ident.seq fun name => ?_
  refine (expectMark _).seq fun _ => ?_
  refine integer.seq fun number => ?_
  refine optionList?.bind (fun options => ?_) fun options => .first (.mark nofun)
  exact (expectMark _).seq fun stop => pure _

theorem enumMember : Means F enumMember Rule.enumMember := by
  refine switch (fun k R h => ?_) fun k? hk => ?_
  · obtain ⟨rfl, rfl⟩ | ⟨rfl, rfl⟩ : (k = .kwOption ∧ R = _) ∨ (k = .kwReserved ∧ R = _) := by
      simpa using h
    · exact optionStatement.map _
    · exact reservedStatement.map _
  · split
    · exact absurd (by simp) (hk .kwOption rfl)
    · exact absurd (by simp) (hk .kwReserved rfl)
    · refine peek fun t? => ?_
      split
      · exact .always (enumValue.map _)
      · rename_i hident
        have hvalue : Opens (among Token.isWord) F (EnumMember.value <$> Rule.enumValue) :=
          .map _ (.first .ident)
        refine .never (unexpected _) (hvalue.excludes ?_)
        cases t? with
        | none => rfl
        | some t =>
            cases t with
            | ident w => exact absurd rfl (hident w)
            | _ => rfl

theorem enum : Means F enum Rule.enum := by
  refine (expectKeyword _).seq fun start => ?_
  refine ident.seq fun name => ?_
  exact (body _ enumMember (Orderly.enumMember (n := 0)) .enumMember).seq fun members => pure _

/-! ### Services -/

theorem methodMember : Means F methodMember Rule.optionStatement := by
  have h : Means F Parser.methodMember (Rule.switch [(.kwOption, Rule.optionStatement)] Rule.fail) := by
    refine switch (fun k R h => ?_) fun k? hk => ?_
    · obtain ⟨rfl, rfl⟩ : k = .kwOption ∧ R = _ := by simpa using h
      exact optionStatement
    · split
      · exact absurd (by simp) (hk .kwOption rfl)
      · exact unexpected _
  refine h.congr fun source ls a ds rest => ⟨?_, fun hR => ?_⟩
  · rintro (⟨k, R, hmem, -, hR⟩ | ⟨-, ⟨⟩⟩)
    obtain ⟨rfl, rfl⟩ : k = .kwOption ∧ R = _ := by simpa using hmem
    exact hR
  · refine Or.inl ⟨.kwOption, _, List.mem_singleton_self _, ?_, hR⟩
    obtain ⟨start, _, _, _, hkey, -⟩ := hR
    exact Rule.nextKeyword?_of_keyword hkey

theorem methodType : Means F methodType Rule.methodType := by
  refine (expectMark _).seq fun _ => ?_
  refine (accept? _).seq fun streaming => ?_
  refine (typeName rfl).bind (fun type => ?_) fun type => .first (.mark rfl)
  exact (expectMark _).seq fun _ => pure _

theorem method : Means F method Rule.method := by
  refine (expectKeyword _).seq fun start => ?_
  refine ident.seq fun name => ?_
  refine methodType.seq fun input => ?_
  refine (expectKeyword _).seq fun _ => ?_
  refine methodType.seq fun output => ?_
  obtain ⟨serverStreaming, output⟩ := output
  have hbody : Means anything (Parser.body .method Parser.methodMember)
      (Rule.body Rule.optionStatement) :=
    body _ methodMember (Orderly.methodMember (n := 0)) .optionStatement
  let build (ending : List OptionStatement × Span) : Rule Method :=
    Pure.pure ⟨name, input.2, output, ending.1, input.1, serverStreaming, start.through ending.2⟩
  have hsemi : Opens (among (· = .mark .semicolon)) F
      (Rule.mark .semicolon >>= fun s => build ([], s)) := .first (.mark (by rfl))
  have hopen : Opens (among (· = .mark .leftBrace)) F (Rule.body Rule.optionStatement >>= build) :=
    .first (.first (.mark (by rfl)))
  refine congr (R := (Rule.mark .semicolon >>= fun s => build ([], s)) <|>
    (Rule.body Rule.optionStatement >>= build)) (peek fun t? => ?_) fun source ls a ds rest => ?_
  · dsimp only
    split
    · exact .left (.always ((expectMark _).seq fun s => pure _)) (hopen.excludes rfl)
    · exact .right (hsemi.excludes rfl) (.always (hbody.seq fun ending => pure _))
    · rename_i hs hl
      rw [unexpected_bind]
      refine .never (unexpected _) ?_
      cases t? with
      | none => exact .orElse (hsemi.excludes rfl) (hopen.excludes rfl)
      | some t =>
          refine .orElse (hsemi.excludes ?_) (hopen.excludes ?_)
          · exact decide_eq_false fun heq => hs (by rw [heq])
          · exact decide_eq_false fun heq => hl (by rw [heq])
  · show _ ↔ (Rule.methodEnd >>= build) source ls a ds rest
    rw [Rule.methodEnd, Rule.orElse_bind_iff, bind_assoc]
    simp only [pure_bind]

theorem serviceMember : Means F serviceMember Rule.serviceMember := by
  refine switch (fun k R h => ?_) fun k? hk => ?_
  · obtain ⟨rfl, rfl⟩ | ⟨rfl, rfl⟩ : (k = .kwOption ∧ R = _) ∨ (k = .kwRpc ∧ R = _) := by
      simpa using h
    · exact optionStatement.map _
    · exact method.map _
  · split
    · exact absurd (by simp) (hk .kwOption rfl)
    · exact absurd (by simp) (hk .kwRpc rfl)
    · exact unexpected _

theorem service : Means F service Rule.service := by
  refine (expectKeyword _).seq fun start => ?_
  refine ident.seq fun name => ?_
  exact (body _ serviceMember (Orderly.serviceMember (n := 0)) .serviceMember).seq
    fun members => pure _

/-! ### Messages -/

theorem messageMember {p : Parser Message} {R : Rule Message} (hp : Means F p R) :
    Means F (messageMember p) (Rule.messageMember R) := by
  refine switch (fun k S h => ?_) fun k? hk => ?_
  · simp only [List.mem_cons, Prod.mk.injEq, List.not_mem_nil, or_false] at h
    rcases h with ⟨rfl, rfl⟩ | ⟨rfl, rfl⟩ | ⟨rfl, rfl⟩ | ⟨rfl, rfl⟩ | ⟨rfl, rfl⟩ | ⟨rfl, rfl⟩ |
      ⟨rfl, rfl⟩
    · exact hp.map _
    · exact enum.map _
    · exact oneof.map _
    · exact extend.map _
    · exact optionStatement.map _
    · exact reservedStatement.map _
    · exact extensionsStatement.map _
  · split
    · exact absurd (by simp) (hk .kwMessage rfl)
    · exact absurd (by simp) (hk .kwEnum rfl)
    · exact absurd (by simp) (hk .kwOneof rfl)
    · exact absurd (by simp) (hk .kwExtend rfl)
    · exact absurd (by simp) (hk .kwOption rfl)
    · exact absurd (by simp) (hk .kwReserved rfl)
    · exact absurd (by simp) (hk .kwExtensions rfl)
    · exact fieldMember (field.map _) (Opens.field.map _)

/-- The budget of a message is the depth to which messages may be nested in it. -/
theorem messageWithin (budget : List Lexeme) :
    Means F (messageWithin budget) (Rule.messageUpTo budget.length) := by
  induction budget generalizing F with
  | nil => exact halt _
  | cons l budget ih =>
      refine (expectKeyword _).seq fun start => ?_
      refine ident.seq fun name => ?_
      exact (body _ (messageMember ih) (Orderly.messageMember (Orderly.messageWithin budget))
        (.messageMember _)).seq fun members => pure _

end Parser.Means

/-! ### How deep messages are nested -/

namespace Rule

/-- What a member is matters only where a member may start. -/
theorem Members.mono {α : Type} {M N : Rule α} {source : List Char} {n : Nat}
    (hMN : ∀ ls a ds rest, Clean ls → ls.length ≤ n → M source ls a ds rest →
      rest <:+ ls ∧ N source ls a ds rest)
    {ls rest : List Lexeme} {as : List α} {ds : List Diagnostic}
    (h : Members M source ls as ds rest) (hc : Clean ls) (hlen : ls.length ≤ n) :
    Members N source ls as ds rest := by
  induction h with
  | nil => exact .nil _
  | semicolon others ih =>
      rw [List.length_cons] at hlen
      exact .semicolon (ih (hc.of_suffix (List.suffix_cons _ _)) (by omega))
  | member first others ih =>
      obtain ⟨hsuf, hN⟩ := hMN _ _ _ _ hc hlen first
      have hle := hsuf.length_le
      exact .member hN (ih (hc.of_suffix hsuf) (by omega))

/-- What a message is matters only where a member is one. -/
theorem messageMember_mono {R S : Rule Message} {source : List Char} {ls rest : List Lexeme}
    {a : Parser.MessageMember} {ds : List Diagnostic}
    (hRS : ∀ m ds rest, R source ls m ds rest → S source ls m ds rest)
    (h : messageMember R source ls a ds rest) : messageMember S source ls a ds rest := by
  rcases h with ⟨k, T, hmem, hk, hT⟩ | ⟨hnone, hT⟩
  · rcases List.mem_cons.mp hmem with heq | hmem
    · cases heq
      obtain ⟨m, ds₁, mid, ds₂, hm, hpure, rfl⟩ := hT
      exact Or.inl ⟨.kwMessage, _, List.mem_cons_self, hk,
        ⟨m, ds₁, mid, ds₂, hRS m ds₁ mid hm, hpure, rfl⟩⟩
    · exact Or.inl ⟨k, T, List.mem_cons_of_mem _ hmem, hk, hT⟩
  · exact Or.inr ⟨hnone, hT⟩

/-- A message has fewer levels than lexemes, since each level takes one for its keyword. -/
theorem messageUpTo_length (depth : Nat) :
    ∀ {source : List Char} {ls rest : List Lexeme} {m : Message} {ds : List Diagnostic} {n : Nat},
      Clean ls → ls.length ≤ n → messageUpTo depth source ls m ds rest →
      messageUpTo n source ls m ds rest := by
  induction depth with
  | zero =>
      intro source ls rest m ds n _ _ h
      cases h
  | succ depth ih =>
      intro source ls rest m ds n hc hlen h
      obtain ⟨start, ds₁, mid, ds₂, hkey, ⟨name, ds₃, mid', ds₄, hname, hbody, rfl⟩, rfl⟩ := h
      have hkey' := hkey
      obtain ⟨rfl, -⟩ := keyword_iff.mp hkey
      have hname' := hname
      obtain ⟨t, s, rfl, -, -⟩ := hname
      have hsuf : mid' <:+ .token (.ident Keyword.kwMessage.text) start :: .token t s :: mid' :=
        (List.suffix_cons _ _).trans (List.suffix_cons _ _)
      simp only [List.length_cons] at hlen
      obtain ⟨n, rfl⟩ : ∃ k, n = k + 1 := ⟨n - 1, by omega⟩
      refine ⟨start, ds₁, _, _, hkey', ⟨name, ds₃, mid', ds₄, hname', ?_, rfl⟩, rfl⟩
      obtain ⟨⟨members, stop⟩, ds₅, mid'', ds₆, ⟨opening, ds₇, tail, ds₈, hopen, hrest, rfl⟩, hbuild, rfl⟩ :=
        hbody
      obtain ⟨ms, ds₉, tail', ds₀, hmembers, hclose, rfl⟩ := hrest
      have hopen' := hopen
      obtain ⟨rfl, -⟩ := mark_iff.mp hopen
      have hct : Clean tail := (hc.of_suffix hsuf).of_suffix (List.suffix_cons _ _)
      simp only [List.length_cons] at hlen
      refine ⟨(members, stop), _, mid'', ds₆, ⟨opening, ds₇, tail, _, hopen',
        ⟨ms, ds₉, tail', ds₀, hmembers.mono (n := n) ?_ hct (by omega), hclose, rfl⟩, rfl⟩,
        hbuild, rfl⟩
      intro ls a ds rest hc' hlen' hmember
      obtain ⟨budget, rfl⟩ : ∃ budget : List Lexeme, budget.length = depth :=
        ⟨List.replicate depth (.illegal ' ' default), List.length_replicate⟩
      have hmeans : Parser.Means anything _ (messageMember (messageUpTo budget.length)) :=
        .messageMember (.messageWithin budget)
      exact ⟨(hmeans.complete ⟨source, true⟩ ls [] a ds rest hc' hmember trivial).1,
        messageMember_mono (fun m ds rest hm => ih hc' hlen' hm) hmember⟩

end Rule

namespace Parser.Means

variable {F : Follow}

theorem message : Means F message Rule.message where
  sound := by
    intro env ls log m r hc hrun
    obtain ⟨ds, hlog, hsuf, hR⟩ := (messageWithin (F := F) ls).sound env ls log m r hc hrun
    exact ⟨ds, hlog, hsuf, fun hds => ⟨ls.length, hR hds⟩⟩
  complete := by
    rintro env ls log m ds rest hc ⟨depth, h⟩ hF
    exact (messageWithin ls).complete env ls log m ds rest hc
      (Rule.messageUpTo_length depth hc (Nat.le_refl _) h) hF

end Parser.Means

end ProtoSchema
