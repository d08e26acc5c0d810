/-
Names, literals and options: what their parsers mean.

One lemma for each production.  It follows the lines of the parser, and where the parser
looks ahead it says which tokens the alternatives of the rule start with.
-/
import ProtoSchema.Proofs.Grammar.Braces
import ProtoSchema.Proofs.Parsing.Productions

namespace ProtoSchema

/-! ### Classes of tokens -/

namespace Token

def isWord : Token → Bool
  | ident _ => true
  | _ => false

def isString : Token → Bool
  | string _ => true
  | _ => false

/-- What the name of a type starts with. -/
def startsType : Token → Bool
  | ident _ | mark .dot => true
  | _ => false

/-- What an integer starts with. -/
def startsInteger : Token → Bool
  | int _ | mark .minus => true
  | _ => false

/-- What a value without a sign and other than a string starts with. -/
def isScalar : Token → Bool
  | ident _ | int _ | float _ => true
  | _ => false

/-- What a part of an option's name starts with. -/
def startsPart : Token → Bool
  | ident _ | mark .leftParen => true
  | _ => false

end Token

namespace Rule.Opens

variable {G : Follow}

theorem ident : Opens (among Token.isWord) G ident := by
  refine token fun t s a h => ?_
  split at h
  · rfl
  · cases h

theorem dottedName : Opens (among Token.isWord) G dottedName := first ident

theorem typeName : Opens (among Token.startsType) G typeName := by
  refine orElse (first (mark rfl)) (first (dottedName.mono fun t? h => ?_))
  cases t? with
  | none => exact h
  | some t => cases t <;> first | rfl | cases h

theorem integer : Opens (among Token.startsInteger) G integer := by
  refine optional (mark rfl) (first (token fun t s a h => ?_))
  split at h
  · rfl
  · cases h

theorem stringLiteral : Opens (among Token.isString) G stringLiteral := by
  refine first (token fun t s a h => ?_)
  unfold Parser.quoted? at h
  split at h
  · rfl
  · cases h

theorem textLiteral : Opens (among Token.isString) G textLiteral := first stringLiteral

theorem signedValue (minus : Option Span) : Opens (among Token.isScalar) G (signedValue minus) := by
  refine first (token fun t s a h => ?_)
  split at h
  · rfl
  · rfl
  · rfl
  · cases h

end Rule.Opens

namespace Parser.Means

open Rule (Opens)

variable {α β : Type} {F G H : Follow}

/-! ### Names -/

theorem ident : Means F ident Rule.ident := require _ _

/-- What ends a name is no dot, so that it is clear whether the name goes on. -/
theorem dottedName {stop : Terminator} (hstop : stop.admits (.mark .dot) = false) :
    Means (among stop.admits) (dottedName stop) Rule.dottedName := by
  refine ident.seq fun first => ?_
  refine bind (items (F := anything) (G := among stop.admits) (fun _ => ident) (fun _ => rfl) ?_
    (fun _ _ => trivial) (fun _ _ _ _ => trivial) ?_) (fun rest => pure _)
    fun rest => .pure _ fun _ h => h
  · refine peek fun t? => ?_
    split
    · rename_i t
      split
      · exact .always (pure _)
      · rename_i hadmits
        refine .never (unexpected _) (.pure _ fun u? hu heq => ?_)
        rw [heq] at hu
        exact hadmits hu
    · refine .never (unexpected _) (.pure _ fun u? hu heq => ?_)
      rw [heq] at hu
      cases hu
  · intro t? ht t s heq
    refine if_neg fun hdot => ?_
    rw [heq, hdot] at ht
    rw [among, Option.any, hstop] at ht
    cases ht

theorem typeName {stop : Terminator} (hstop : stop.admits (.mark .dot) = false) :
    Means (among stop.admits) (typeName stop) Rule.typeName := by
  refine peek fun t? => ?_
  split
  · refine .left (.always ?_) (.excludes (.first .dottedName) rfl)
    refine (expectMark _).seq fun dot => ?_
    exact (dottedName hstop).bind (fun name => pure _) fun name => .pure _ fun _ h => h
  · refine .right (.excludes (P := (· = .mark .dot)) (.first (.mark (by rfl))) rfl) (.always ?_)
    exact (dottedName hstop).bind (fun name => pure _) fun name => .pure _ fun _ h => h
  · rename_i hdot hident
    refine .never (unexpected _) (Opens.typeName.excludes ?_)
    cases t? with
    | none => rfl
    | some t =>
        cases t with
        | ident w => exact absurd rfl (hident w)
        | mark p => cases p <;> first | rfl | exact absurd rfl hdot
        | _ => rfl

/-! ### Literals -/

theorem integer : Means F integer Rule.integer := by
  refine optionalToken (fun minus => ?_) ?_
  · refine (require _ _).seq fun ns => ?_
    cases minus <;> exact pure _
  · refine .first (.token fun t s a h => lacking_some fun s' => if_neg ?_)
    rintro rfl
    cases h

theorem stringLiteral : Means (lacking quoted?) stringLiteral Rule.stringLiteral := by
  refine (require _ _).seq fun first => ?_
  refine bind ?_ (fun rest => pure _) fun rest => .pure _ fun _ h => h
  rw [← bind_pure (Rule.token quoted?)]
  exact items (F := anything) (fun b => pure b) (fun _ => rfl) (pure _) (fun _ _ => trivial)
    (fun _ _ _ _ => trivial) fun _ h => h

theorem textLiteral : Means (lacking quoted?) textLiteral Rule.textLiteral := by
  refine stringLiteral.bind (G := lacking quoted?) (fun s => ?_) fun s => ?_
  · cases Utf8.decode? s.bytes with
    | some text => exact pure _
    | none => exact (report rfl).seq fun _ => pure _
  · cases Utf8.decode? s.bytes with
    | some text => exact .pure _ fun _ h => h
    | none =>
        rintro source ls a ds rest ⟨_, _, _, _, ⟨-, rfl⟩, ⟨-, -, rfl⟩, -⟩ hG
        exact hG

/-! ### Values of options -/

theorem signedValue (minus : Option Span) :
    Means F (signedValue minus) (Rule.signedValue minus) := by
  refine (require _ _).seq fun value => ?_
  cases value with
  | ident negative name s =>
      cases negative with
      | false => exact pure _
      | true =>
          dsimp only
          by_cases h : isNegatable name.text = true
          · rw [if_pos h, if_pos h]
            exact pure _
          · rw [if_neg h, if_neg h]
            exact (report rfl).seq fun _ => pure _
  | _ => exact pure _

/-- A word is the value that it is as a scalar without a sign. -/
theorem wordValue (w : String) :
    Branch F (some (.ident w))
      (Parser.ident >>= fun name => Pure.pure (OptionValue.ident false name name.span))
      (Rule.signedValue none) := by
  refine ⟨_, ident.seq fun name => pure _, fun source ls a ds rest ht => ⟨?_, ?_⟩⟩
  · rintro ⟨name, _, _, _, ⟨t, s, rfl, hf, rfl⟩, ⟨rfl, rfl, rfl⟩, rfl⟩
    cases ht
    cases hf
    exact ⟨.ident false ⟨w, s⟩ s, [], rest, [], ⟨.ident w, s, rfl, rfl, rfl⟩, ⟨rfl, rfl, rfl⟩, rfl⟩
  · rintro ⟨value, _, _, _, ⟨t, s, rfl, hf, rfl⟩, hrest, rfl⟩ _
    cases ht
    cases hf
    obtain ⟨rfl, rfl, rfl⟩ := hrest
    exact ⟨⟨w, s⟩, [], _, [], ⟨.ident w, s, rfl, rfl, rfl⟩, ⟨rfl, rfl, rfl⟩, rfl⟩

theorem optionValue : Means (lacking quoted?) optionValue Rule.optionValue := by
  have hscalar : Opens (among Token.isScalar) (lacking quoted?) (Rule.signedValue none) :=
    .signedValue none
  have hplus : Opens (among (· = .mark .plus)) (lacking quoted?) (do
      let _ ← Rule.mark .plus
      Rule.signedValue none) := .first (.mark (by rfl))
  have hminus : Opens (among (· = .mark .minus)) (lacking quoted?) (do
      let minus ← Rule.mark .minus
      Rule.signedValue (some minus)) := .first (.mark (by rfl))
  have hstring : Opens (among Token.isString) (lacking quoted?) (do
      let s ← Rule.stringLiteral
      Pure.pure (OptionValue.string s)) := .first .stringLiteral
  have hblock : Opens (among (· = .mark .leftBrace)) (lacking quoted?) Rule.aggregate :=
    .first (.mark (by rfl))
  -- The alternatives start with different tokens.
  have hothers {t? : Option Token} (hp : t?.any (· = .mark .plus) = false)
      (hm : t?.any (· = .mark .minus) = false) (hs : t?.any Token.isString = false)
      (hb : t?.any (· = .mark .leftBrace) = false) :
      Opens (· ≠ t?) (lacking quoted?) ((do
        let _ ← Rule.mark .plus
        Rule.signedValue none) <|> (do
        let minus ← Rule.mark .minus
        Rule.signedValue (some minus)) <|> (do
        let s ← Rule.stringLiteral
        Pure.pure (OptionValue.string s)) <|> Rule.aggregate) :=
    .orElse (hplus.excludes hp) (.orElse (hminus.excludes hm)
      (.orElse (hstring.excludes hs) (hblock.excludes hb)))
  refine peek fun t? => ?_
  cases t? with
  | none => exact .never (unexpected _) (.orElse (hscalar.excludes rfl) (hothers rfl rfl rfl rfl))
  | some t =>
      cases t with
      | ident w => exact .left (wordValue _) (hothers rfl rfl rfl rfl)
      | int n => exact .left (.always (signedValue none)) (hothers rfl rfl rfl rfl)
      | float x => exact .left (.always (signedValue none)) (hothers rfl rfl rfl rfl)
      | string b =>
          refine .right (hscalar.excludes rfl) (.right (hplus.excludes rfl) (.right
            (hminus.excludes rfl) (.left (.always ?_) (hblock.excludes rfl))))
          exact stringLiteral.bind (fun s => pure _) fun s => .pure _ fun _ h => h
      | mark p =>
          cases p with
          | plus =>
              refine .right (hscalar.excludes rfl) (.left (.accept (fun _ => signedValue none)
                (signedValue none) fun s => rfl) ?_)
              exact .orElse (hminus.excludes rfl)
                (.orElse (hstring.excludes rfl) (hblock.excludes rfl))
          | minus =>
              refine .right (hscalar.excludes rfl) (.right (hplus.excludes rfl)
                (.left (.always ?_) ?_))
              · exact (expectMark _).seq fun minus => signedValue _
              · exact .orElse (hstring.excludes rfl) (hblock.excludes rfl)
          | leftBrace =>
              exact .right (hscalar.excludes rfl) (.right (hplus.excludes rfl) (.right
                (hminus.excludes rfl) (.right (hstring.excludes rfl) (.always aggregate))))
          | _ =>
              exact .never (unexpected _)
                (.orElse (hscalar.excludes rfl) (hothers rfl rfl rfl rfl))

/-! ### Settings -/

theorem optionNamePart : Means F optionNamePart Rule.optionNamePart := by
  have hparen : Opens (among (· = .mark .leftParen)) F (do
      let opening ← Rule.mark .leftParen
      let name ← Rule.typeName
      let closing ← Rule.mark .rightParen
      Pure.pure (OptionNamePart.extension name (opening.through closing))) :=
    .first (.mark (by rfl))
  have hword : Opens (among Token.isWord) F (do
      let name ← Rule.ident
      Pure.pure (OptionNamePart.ident name)) := .first .ident
  refine peek fun t? => ?_
  split
  · refine .left (.always ?_) (hword.excludes rfl)
    refine (expectMark _).seq fun opening => ?_
    refine (typeName rfl).bind (fun name => ?_) fun name => .first (.mark rfl)
    exact (expectMark _).seq fun closing => pure _
  · exact .right (hparen.excludes rfl) (.always (ident.seq fun name => pure _))
  · rename_i hp hident
    refine .never (unexpected _) ?_
    cases t? with
    | none => exact .orElse (hparen.excludes rfl) (hword.excludes rfl)
    | some t =>
        cases t with
        | ident w => exact absurd rfl (hident w)
        | mark p =>
            refine .orElse (hparen.excludes ?_) (hword.excludes rfl)
            exact decide_eq_false fun heq => hp (by rw [heq])
        | _ => exact .orElse (hparen.excludes rfl) (hword.excludes rfl)

theorem optionSetting : Means (lacking quoted?) optionSetting Rule.optionSetting := by
  refine optionNamePart.seq fun first => ?_
  -- The loop takes the equals sign with its last turn.
  have hloop : Means anything (many optionNameTurn) (do
      let rest ← Rule.many do
        let _ ← Rule.mark .dot
        Rule.optionNamePart
      let _ ← Rule.mark .equals
      Pure.pure rest) := by
    refine itemsThen (F := anything) (Z := Rule.mark .equals) (fun _ => optionNamePart)
      (fun _ => rfl) ?_ (.anything _) (fun _ _ _ _ => trivial) (.mark (lacking_some fun s => rfl))
    exact acceptOrFail (fun _ => pure _) (unexpected _)
  have hvalue (rest : List OptionNamePart) : Means (lacking quoted?) (do
      let value ← Parser.optionValue
      Pure.pure (⟨first, rest, value⟩ : OptionSetting)) (do
      let value ← Rule.optionValue
      Pure.pure ⟨first, rest, value⟩) :=
    optionValue.bind (fun value => pure _) fun value => .pure _ fun _ h => h
  have h := hloop.seq hvalue
  simp only [bind_assoc, pure_bind] at h
  exact h

theorem optionStatement : Means F optionStatement Rule.optionStatement := by
  refine (expectKeyword _).seq fun start => ?_
  refine optionSetting.bind (fun setting => ?_) fun setting => .first (.mark ?_)
  · exact (expectMark _).seq fun stop => pure _
  · exact lacking_some fun s => rfl

/-! ### Lists between commas -/

/-- What ends a list between commas is no comma, so that it is clear whether the list goes on. -/
theorem commas {item : Parser α} {I : Rule α} {next : Option Span → Parser (Turn α)}
    {K : List α → Parser β} {L : List α → Rule β} (hi : Means F item I)
    (hsome : ∀ s, next (some s) = item >>= fun a => Pure.pure (.yield a))
    (hnone : Means G (next none) (Pure.pure .stop)) (hG : ∀ t?, G t? → F t?)
    (hF : F (some (.mark .comma))) (hcomma : ¬ G (some (.mark .comma)))
    (hK : ∀ as, Means H (K as) (L as)) (hL : ∀ as, Opens G H (L as)) :
    Means H (item >>= fun first =>
        many (acceptMark? .comma >>= next) >>= fun rest => K (first :: rest))
      (Rule.separated I >>= L) := by
  have hform : ∀ (t : Token) (s b : Span), (if t = Token.mark .comma then some s else none) = some b →
      F (some t) := by
    intro t s b h
    split at h
    · rename_i ht
      rw [ht]
      exact hF
    · cases h
  have hlist : Means G (item >>= fun first =>
      many (acceptMark? .comma >>= next) >>= fun rest => Pure.pure (first :: rest))
      (Rule.separated I) := by
    refine hi.bind (fun first => ?_) fun first => ?_
    · refine bind (items (fun _ => hi) hsome hnone hG hform fun t? ht t s heq => ?_)
        (fun rest => pure _) fun rest => .pure _ fun _ h => h
      refine if_neg fun hc => hcomma ?_
      rw [← hc, ← heq]
      exact ht
    · rintro source ls as ds rest ⟨others, _, mid, _, hmany, ⟨-, -, rfl⟩, -⟩ hend
      exact follow_many hform hmany (hG _ hend)
  have h := hlist.bind hK hL
  simpa only [bind_assoc, pure_bind] using h

theorem optionList : Means F optionList Rule.optionList := by
  refine (expectMark _).seq fun opening => ?_
  let K (settings : List OptionSetting) : Parser OptionList := do
    let closing ← Parser.expectMark .rightBracket
    Pure.pure ⟨settings, opening.through closing⟩
  refine commas (K := K) (G := (· = some (.mark .rightBracket))) optionSetting (fun _ => rfl) ?_ ?_
    ?_ nofun (fun settings => (expectMark _).seq fun closing => pure _)
    fun settings => .first (.mark rfl)
  · refine peek fun t? => ?_
    split
    · exact .always (pure _)
    · rename_i hne
      refine .never (unexpected _) (.pure _ fun u? hu heq => hne ?_)
      rw [← heq, hu]
  · rintro t? rfl
    exact lacking_some fun s => rfl
  · exact lacking_some fun s => rfl

theorem optionList? : Means (· ≠ some (.mark .leftBracket)) optionList?
    (Rule.optional Rule.optionList) := by
  have hlist : Opens (among (· = .mark .leftBracket)) (· ≠ some (.mark .leftBracket))
      (some <$> Rule.optionList) := .map some (.first (.mark (by rfl)))
  refine peek fun t? => ?_
  split
  · exact .left (.always (optionList.seq fun list => pure _)) (.pure _ fun _ h => h)
  · rename_i hne
    refine .right (hlist.excludes ?_) (.always (pure _))
    cases t? with
    | none => rfl
    | some t => exact decide_eq_false fun heq => hne (by rw [heq])

end Parser.Means

end ProtoSchema
