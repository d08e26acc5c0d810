/-
Names, values and options read back.

Each kind of node has a lemma: where the node is legal, its rule derives from its pieces a
node that is the same but for places.
-/
import ProtoSchema.Proofs.Rendering.Prints
import ProtoSchema.Proofs.Rendering.Utf8

namespace ProtoSchema

namespace Prints

/-! ### Names -/

theorem ident {n : Ident} (h : n.isLegal = true) :
    Prints Rule.ident [Piece.word n.text] fun a => a.bare = n.bare :=
  token h fun s => ⟨⟨n.text, s⟩, rfl, rfl⟩

theorem dottedName {n : DottedName} (h : n.isLegal = true) :
    Prints Rule.dottedName n.pieces fun a => a.bare = n.bare := by
  obtain ⟨hfirst, hrest⟩ := List.forall_mem_cons.mp (List.all_eq_true.mp h)
  have hmany : Prints (Rule.many do let _ ← Rule.mark .dot; Rule.ident)
      (n.rest.flatMap fun part => [Piece.mark .dot, Piece.word part.text])
      fun rest => rest.map Ident.bare = n.rest.map Ident.bare :=
    many n.rest fun part hp => cons (mark .dot) fun _ _ => ident (hrest part hp)
  exact cons (ident hfirst) fun first hf => hmany.last fun rest hr =>
    congrArg₂ DottedName.mk hf hr

theorem typeName {n : TypeName} (h : n.isLegal = true) :
    Prints Rule.typeName n.pieces fun a => a.bare = n.bare := by
  obtain ⟨dot?, name⟩ := n
  cases dot? with
  | none => exact right ((dottedName h).last fun name hn => congrArg (TypeName.mk none) hn)
  | some dot =>
      exact left (cons (mark .dot) fun s _ => (dottedName h).last fun name hn =>
        congrArg (TypeName.mk (some default)) hn)

/-! ### Literals -/

theorem integer (n : IntLiteral) : Prints Rule.integer n.pieces fun a => a.bare = n.bare := by
  obtain ⟨negative, magnitude, span⟩ := n
  cases negative with
  | false =>
      refine bind (P := (· = none)) optional_none fun minus hm => ?_
      subst hm
      refine last (P := fun r => r.1 = magnitude) (token rfl fun s => ⟨_, rfl, rfl⟩) ?_
      rintro ⟨m, s⟩ rfl
      rfl
  | true =>
      refine bind (optional_some (mark .minus)) ?_
      rintro _ ⟨minus, rfl, -⟩
      refine last (P := fun r => r.1 = magnitude) (token rfl fun s => ⟨_, rfl, rfl⟩) ?_
      rintro ⟨m, s⟩ rfl
      rfl

theorem stringLiteral (bytes : List UInt8) :
    Prints Rule.stringLiteral [.token (.string bytes)] fun a => a.bytes = bytes := by
  have hmany : Prints (Rule.many (Rule.token Parser.quoted?)) [] fun rest => rest = [] :=
    ⟨fun _ hp => absurd hp List.not_mem_nil, fun _ ls _ hs => ⟨[], ls, .nil ls, rfl, hs⟩⟩
  refine cons (P := fun a => a.bytes = bytes) (token rfl fun s => ⟨⟨bytes, s⟩, rfl, rfl⟩) ?_
  intro first hf
  refine hmany.last fun rest hr => ?_
  rw [hr]
  exact (List.append_nil _).trans hf

/-- The bytes of a text are a literal for that text. -/
theorem textLiteral (text : String) :
    Prints Rule.textLiteral [Piece.literal text] fun a => a.text = text := by
  rw [← List.append_nil [Piece.literal text]]
  refine (stringLiteral _).bind fun s hs => ?_
  rw [hs, Utf8.decode?_encode]
  exact pure (String.ofList_toList)

/-! ### Values -/

theorem aggregate {text : String} (h : isBlockText text = true) (span : Span) :
    Prints Rule.aggregate [.block text]
      fun a => a.bare = (OptionValue.aggregate text span).bare where
  readable := List.forall_mem_singleton.mpr h
  derives := by
    intro source ls tail hs
    cases hs with
    | @block _ opening closing mid rest _ balanced slice others =>
        have htext : String.ofList (Text.trim (Text.slice source ⟨opening.stop, closing.start⟩)) =
            text := by rw [slice, String.ofList_toList]
        refine ⟨.aggregate text (opening.through closing), rest, ?_, rfl, others⟩
        refine ⟨opening, [], mid, [], Rule.mark_iff.mpr ⟨rfl, rfl⟩, ?_, rfl⟩
        refine ⟨closing, [], rest, [], ?_, ?_, rfl⟩
        · exact ⟨(), [], _, [], ⟨balanced, rfl⟩, Rule.mark_iff.mpr ⟨rfl, rfl⟩, rfl⟩
        · exact ⟨text, [], rest, [], ⟨htext.symm, rfl, rfl⟩, ⟨rfl, rfl, rfl⟩, rfl⟩

theorem signedInteger (minus : Option Span) (n : UInt64) :
    Prints (Rule.signedValue minus) [.token (.int n)]
      fun a => ∃ s, a = .int ⟨minus.isSome, n, s⟩ := by
  rw [← List.append_nil [Piece.token _]]
  refine bind (P := fun a => ∃ s, a = OptionValue.int ⟨minus.isSome, n, s⟩)
    (token rfl fun s => ⟨_, rfl, _, rfl⟩) ?_
  rintro _ ⟨s, rfl⟩
  exact pure ⟨s, rfl⟩

/-- A minus sign goes with a word that stands for a number. -/
theorem signedWord (minus : Option Span) {word : String} (hw : isWord word = true)
    (hm : minus = none ∨ Parser.isNegatable word = true) :
    Prints (Rule.signedValue minus) [Piece.word word]
      fun a => ∃ s s', a = .ident minus.isSome ⟨word, s⟩ s' := by
  rw [← List.append_nil [Piece.word _]]
  refine bind (P := fun a => ∃ s s', a = OptionValue.ident minus.isSome ⟨word, s⟩ s')
    (token hw fun s => ⟨_, rfl, _, _, rfl⟩) ?_
  rintro _ ⟨s, s', rfl⟩
  rcases hm with rfl | hm
  · exact pure ⟨s, s', rfl⟩
  · cases hsome : minus.isSome with
    | false => exact pure ⟨s, s', rfl⟩
    | true =>
        dsimp only
        rw [if_pos hm]
        exact pure ⟨s, s', rfl⟩

theorem optionValue {v : OptionValue} (h : v.isLegal = true) :
    Prints Rule.optionValue v.pieces fun a => a.bare = v.bare := by
  cases v with
  | ident negative name span =>
      obtain ⟨hw, hn⟩ := Bool.and_eq_true_iff.mp h
      cases negative with
      | false =>
          refine left ((signedWord none hw (Or.inl rfl)).imp ?_)
          rintro _ ⟨s, s', rfl⟩
          rfl
      | true =>
          refine right (right (left (cons (mark .minus) fun minus _ => ?_)))
          refine (signedWord (some minus) hw (Or.inr hn)).imp ?_
          rintro _ ⟨s, s', rfl⟩
          rfl
  | int n =>
      obtain ⟨negative, magnitude, span⟩ := n
      cases negative with
      | false =>
          refine left ((signedInteger none magnitude).imp ?_)
          rintro _ ⟨s, rfl⟩
          rfl
      | true =>
          refine right (right (left (cons (mark .minus) fun minus _ => ?_)))
          refine (signedInteger (some minus) magnitude).imp ?_
          rintro _ ⟨s, rfl⟩
          rfl
  | float value span => cases h
  | string s =>
      refine right (right (right (left ((stringLiteral s.bytes).last fun a ha => ?_))))
      exact congrArg (fun bytes => OptionValue.string ⟨bytes, default⟩) ha
  | aggregate text span => exact right (right (right (right (aggregate h span))))

/-! ### Options -/

theorem optionNamePart {part : OptionNamePart} (h : part.isLegal = true) :
    Prints Rule.optionNamePart part.pieces fun a => a.bare = part.bare := by
  cases part with
  | ident name => exact right ((ident h).last fun a ha => congrArg OptionNamePart.ident ha)
  | extension name span =>
      exact left (cons (mark .leftParen) fun opening _ => (typeName h).bind fun name hn =>
        (mark .rightParen).last fun closing _ =>
          congrArg (fun name => OptionNamePart.extension name default) hn)

theorem optionSetting {o : OptionSetting} (h : o.isLegal = true) :
    Prints Rule.optionSetting o.pieces fun a => a.bare = o.bare := by
  obtain ⟨hparts, hvalue⟩ := Bool.and_eq_true_iff.mp h
  obtain ⟨hfirst, hrest⟩ := List.forall_mem_cons.mp (List.all_eq_true.mp hparts)
  have hmany : Prints (Rule.many do let _ ← Rule.mark .dot; Rule.optionNamePart)
      (o.rest.flatMap fun part => Piece.mark .dot :: part.pieces)
      fun rest => rest.map OptionNamePart.bare = o.rest.map OptionNamePart.bare :=
    many o.rest fun part hp => cons (mark .dot) fun _ _ => optionNamePart (hrest part hp)
  unfold OptionSetting.pieces
  rw [List.append_assoc]
  refine (optionNamePart hfirst).bind fun first hf => hmany.bind fun rest hr =>
    cons (mark .equals) fun _ _ => (optionValue hvalue).last fun value hv => ?_
  show OptionSetting.mk first.bare (rest.map OptionNamePart.bare) value.bare = _
  rw [hf, hr, hv]
  rfl

theorem optionStatement {o : OptionStatement} (h : o.isLegal = true) :
    Prints Rule.optionStatement o.pieces fun a => a.bare = o.bare :=
  cons (keyword .kwOption) fun _ _ => (optionSetting h).bind fun _ hs =>
    (mark .semicolon).last fun _ _ => congrArg (fun s => OptionStatement.mk s default) hs

theorem optionList {l : OptionList} (h : l.isLegal = true) :
    Prints Rule.optionList (OptionList.pieces (some l)) fun a => a.bare = l.bare := by
  obtain ⟨hne, hall⟩ := Bool.and_eq_true_iff.mp h
  refine cons (mark .leftBracket) fun opening _ => bind (separated l.settings
    (of_decide_eq_true hne) fun o ho => optionSetting (List.all_eq_true.mp hall o ho))
    fun settings hs => (mark .rightBracket).last fun closing _ => ?_
  exact congrArg (fun settings => OptionList.mk settings default) hs

/-- A list of options that may be missing. -/
theorem optionList? {l? : Option OptionList} (h : l?.all OptionList.isLegal = true) :
    Prints (Rule.optional Rule.optionList) (OptionList.pieces l?)
      fun a => a.map OptionList.bare = l?.map OptionList.bare := by
  cases l? with
  | none =>
      refine optional_none.imp ?_
      rintro _ rfl
      rfl
  | some l =>
      refine (optional_some (optionList h)).imp ?_
      rintro _ ⟨a, rfl, ha⟩
      exact congrArg some ha

end Prints

end ProtoSchema
