/-
Fields and reservations read back.

The grammar decides by a word at four places: whether a field has a label, whether its type
is a map, whether a type is a scalar type, and what kind of member comes next.  `start` is
the token that a printed type or field starts with, and legality keeps it from being taken
for something else.
-/
import ProtoSchema.Proofs.Rendering.Values

namespace ProtoSchema

/-! ### The first token of a field -/

def TypeName.start (n : TypeName) : Token :=
  if n.leadingDot.isSome then .mark .dot else .ident n.name.first.text

def FieldKind.start : FieldKind → Token
  | plain (.scalar t) _ => .ident t.text
  | plain (.named n) _ => n.start
  | map .. => .ident Keyword.kwMap.text

def Field.start (f : Field) : Token :=
  match f.label with
  | some l => .ident l.1.keyword.text
  | none => f.kind.start

theorem TypeName.first?_pieces (n : TypeName) : Piece.first? n.pieces = some n.start := by
  obtain ⟨dot?, name⟩ := n
  cases dot? <;> rfl

theorem FieldKind.first?_pieces (k : FieldKind) : Piece.first? k.pieces = some k.start := by
  cases k with
  | map key keySpan value valueSpan span => rfl
  | plain type span =>
      cases type with
      | scalar t => rfl
      | named n => exact n.first?_pieces

theorem Field.first?_pieces (f : Field) : Piece.first? f.pieces = some f.start := by
  unfold pieces start
  cases f.label with
  | some l => rfl
  | none =>
      rw [List.append_assoc, List.append_assoc, List.append_assoc, List.append_assoc]
      exact Piece.first?_append f.kind.first?_pieces _

/-- A type starts with a dot, or with the word that it opens with. -/
theorem TypeName.start_cases (n : TypeName) :
    (n.start = .mark .dot ∧ n.opening? = none) ∨
      ∃ w, n.start = .ident w ∧ n.opening? = some w := by
  unfold start opening?
  by_cases h : n.leadingDot.isSome = true
  · exact Or.inl ⟨if_pos h, if_pos h⟩
  · exact Or.inr ⟨n.name.first.text, if_neg h, if_neg h⟩

theorem Keyword.text_ne_scalar (k : Keyword) (t : ScalarType) : k.text ≠ t.text := by
  cases k <;> cases t <;> decide

theorem labelOf?_scalar (t : ScalarType) : Parser.labelOf? t.text = none := by
  cases t <;> decide

theorem labelOf?_keyword (l : Label) : Parser.labelOf? l.keyword.text = some l := by
  cases l <;> rfl

/-- A field that is legal among certain members does not start like them. -/
theorem Field.start_ne {others : List Keyword} {f : Field} (h : f.isLegal others = true)
    (ho : ∀ k ∈ others, k.text ≠ Keyword.kwMap.text ∧ Parser.labelOf? k.text = none) :
    ∀ k ∈ others, f.start ≠ .ident k.text := by
  obtain ⟨-, hl⟩ := Bool.and_eq_true_iff.mp h
  intro k hk heq
  unfold start at heq
  cases hlabel : f.label with
  | some l =>
      rw [hlabel] at heq
      have hnone := (ho k hk).2
      rw [← Token.ident.inj heq, labelOf?_keyword] at hnone
      cases hnone
  | none =>
      rw [hlabel] at heq hl
      cases hkind : f.kind with
      | map key keySpan value valueSpan span =>
          rw [hkind] at heq
          exact (ho k hk).1 (Token.ident.inj heq).symm
      | plain type span =>
          cases type with
          | scalar t =>
              rw [hkind] at heq
              exact k.text_ne_scalar t (Token.ident.inj heq).symm
          | named n =>
              rw [hkind] at heq hl
              rcases n.start_cases with ⟨hs, -⟩ | ⟨w, hs, hw⟩
              · cases hs.symm.trans heq
              · obtain rfl := Token.ident.inj (hs.symm.trans heq)
                have hopen : (FieldKind.plain (.named n) span).opening? = some k.text := hw
                rw [hopen] at hl
                obtain ⟨-, hall⟩ := Bool.and_eq_true_iff.mp hl
                exact of_decide_eq_true (List.all_eq_true.mp hall k hk) rfl

namespace Prints

/-! ### Types -/

theorem typeUse {type : TypeUse} (h : type.isLegal = true) :
    Prints Rule.typeUse type.pieces fun a => a.1.bare = type.bare := by
  cases type with
  | scalar t =>
      rw [← List.append_nil (TypeUse.pieces _)]
      refine bind (P := fun a? => ∃ a : ScalarType × Span, a? = some a ∧ a.1 = t)
        (token?_some (by cases t <;> decide) fun s => ⟨(t, s), ?_, rfl⟩) ?_
      · show (ScalarType.ofText? t.text).map _ = _
        rw [ScalarType.ofText?_text]
        rfl
      · rintro _ ⟨⟨t, s⟩, rfl, rfl⟩
        exact pure rfl
  | named n =>
      obtain ⟨hn, ho⟩ := Bool.and_eq_true_iff.mp h
      refine token?_none n.first?_pieces (fun s => ?_) ((typeName hn).last fun name hn => ?_)
      · rcases n.start_cases with ⟨hs, -⟩ | ⟨w, hs, hw⟩
        · rw [hs]
        · rw [hs]
          rw [hw] at ho
          show (ScalarType.ofText? w).map _ = none
          rw [Option.isNone_iff_eq_none.mp ho]
          rfl
      · exact congrArg TypeUse.named hn

theorem fieldKind {k : FieldKind} (h : k.isLegal = true) :
    Prints Rule.fieldKind k.pieces fun a => a.bare = k.bare := by
  obtain ⟨ht, ho⟩ := Bool.and_eq_true_iff.mp h
  cases k with
  | map key keySpan value valueSpan span =>
      obtain ⟨hk, hv⟩ := Bool.and_eq_true_iff.mp ht
      refine cons (P := fun a? => ∃ s : Span, a? = some s ∧ True)
        (token?_some (by decide) fun s => ⟨s, if_pos rfl, trivial⟩) ?_
      rintro _ ⟨start, rfl, -⟩
      show Prints _ (Piece.mark .leftAngle :: (key.pieces ++ (Piece.mark .comma :: value.pieces)) ++ _) _
      rw [List.cons_append, List.append_assoc]
      refine cons (mark .leftAngle) fun _ _ => (typeUse hk).bind fun key' hkey =>
        cons (mark .comma) fun _ _ => (typeUse hv).bind fun value' hvalue =>
          (mark .rightAngle).last fun _ _ => ?_
      show FieldKind.map key'.1.bare default value'.1.bare default default = _
      rw [hkey, hvalue]
      rfl
  | plain type span =>
      refine token?_none (FieldKind.first?_pieces _) (fun s => if_neg ?_)
        ((typeUse ht).last fun type' htype => congrArg (FieldKind.plain · default) htype)
      cases type with
      | scalar t => exact fun heq => Keyword.text_ne_scalar _ t (Token.ident.inj heq).symm
      | named n =>
          intro heq
          rcases n.start_cases with ⟨hs, -⟩ | ⟨w, hs, hw⟩
          · cases hs.symm.trans heq
          · obtain rfl := Token.ident.inj (hs.symm.trans heq)
            have hopen : (FieldKind.plain (.named n) span).opening? = some Keyword.kwMap.text := hw
            rw [hopen] at ho
            exact of_decide_eq_true (p := Keyword.kwMap.text ≠ Keyword.kwMap.text) ho rfl

/-! ### Fields -/

/-- A label that may be missing, in front of pieces that do not start with one. -/
theorem label? {β : Type} {S : Option (Label × Span) → Rule β} {qs : List Piece} {Q : β → Prop}
    {l? : Option (Label × Span)} {t : Token} (ht : Piece.first? qs = some t)
    (hl : l?.isSome = true ∨ ∀ w, t = .ident w → Parser.labelOf? w = none)
    (hS : ∀ a, bareWord a = bareWord l? → Prints (S a) qs Q) :
    Prints (Rule.label? >>= S) (l?.toList.map (fun l => Piece.keyword l.1.keyword) ++ qs) Q := by
  cases l? with
  | some l =>
      refine bind (P := fun a? => ∃ a : Label × Span, a? = some a ∧ a.1 = l.1)
        (token?_some (by cases l.1 <;> decide) fun s => ⟨(l.1, s), ?_, rfl⟩) ?_
      · show (Parser.labelOf? l.1.keyword.text).map _ = _
        rw [labelOf?_keyword]
        rfl
      · rintro _ ⟨a, rfl, ha⟩
        exact hS (some a) (congrArg (fun l => some (l, default)) ha)
  | none =>
      refine token?_none ht (fun s => ?_) (hS none rfl)
      rcases hl with hl | hl
      · cases hl
      · cases t with
        | ident w =>
            show (Parser.labelOf? w).map _ = none
            rw [hl w rfl]
            rfl
        | int n => rfl
        | float x => rfl
        | string bytes => rfl
        | mark p => rfl

/-- The type of a field without a label does not start with one. -/
theorem labelOf?_start {others : List Keyword} {f : Field} (h : f.isLegal others = true) :
    f.label.isSome = true ∨ ∀ w, f.kind.start = .ident w → Parser.labelOf? w = none := by
  obtain ⟨-, hl⟩ := Bool.and_eq_true_iff.mp h
  rcases Bool.or_eq_true_iff.mp hl with hl | hl
  · exact Or.inl hl
  · refine Or.inr fun w heq => ?_
    cases hkind : f.kind with
    | map key keySpan value valueSpan span =>
        rw [hkind] at heq
        rw [← Token.ident.inj heq]
        rfl
    | plain type span =>
        rw [hkind] at heq hl
        cases type with
        | scalar t =>
            rw [← Token.ident.inj heq]
            exact labelOf?_scalar t
        | named n =>
            rcases n.start_cases with ⟨hs, -⟩ | ⟨w', hs, hw⟩
            · cases hs.symm.trans heq
            · obtain rfl := Token.ident.inj (hs.symm.trans heq)
              have hopen : (FieldKind.plain (.named n) span).opening? = some w' := hw
              rw [hopen] at hl
              exact Option.isNone_iff_eq_none.mp (Bool.and_eq_true_iff.mp hl).1

theorem field {others : List Keyword} {f : Field} (h : f.isLegal others = true) :
    Prints Rule.field f.pieces fun a => a.bare = f.bare := by
  obtain ⟨⟨⟨hk, hn⟩, ho⟩, -⟩ : ((f.kind.isLegal = true ∧ f.name.isLegal = true) ∧
      f.options.all OptionList.isLegal = true) ∧ _ := by
    unfold Field.isLegal at h
    simp only [Bool.and_eq_true] at h
    exact h
  unfold Field.pieces
  rw [List.append_assoc, List.append_assoc, List.append_assoc, List.append_assoc]
  refine label? (Piece.first?_append f.kind.first?_pieces _) (labelOf?_start h)
    fun label hlabel => (fieldKind hk).bind fun kind hkind => cons (ident hn) fun name hname =>
      cons (mark .equals) fun _ _ => (integer f.number).bind fun number hnumber =>
        (optionList? ho).bind fun options hoptions => (mark .semicolon).last fun _ _ => ?_
  show Field.mk (bareWord label) kind.bare name.bare number.bare (options.map OptionList.bare)
    default = _
  rw [hlabel, hkind, hname, hnumber, hoptions]
  rfl

/-! ### Ranges and reservations -/

theorem numberRange (r : NumberRange) :
    Prints Rule.numberRange r.pieces fun a => a.bare = r.bare := by
  obtain ⟨start, stop⟩ := r
  refine (integer start).bind fun start' hstart => ?_
  rcases stop with _ | n | s
  · exact right (pure (congrArg (NumberRange.mk · .same) hstart))
  · refine left (cons (keyword .kwTo) fun _ _ => right ((integer n).last fun n' hn => ?_))
    exact congrArg₂ (fun a b => NumberRange.mk a (.to b)) hstart hn
  · refine left (cons (keyword .kwTo) fun _ _ => left ((keyword .kwMax).last fun _ _ => ?_))
    exact congrArg (NumberRange.mk · (.max default)) hstart

theorem reservedName (n : Ident) :
    Prints Rule.reservedName [Piece.literal n.text] fun a => a.bare = n.bare :=
  right ((textLiteral n.text).imp fun _ ha => congrArg (Ident.mk · default) ha)

theorem reservedStatement {r : Reserved} (h : r.isLegal = true) :
    Prints Rule.reservedStatement r.pieces fun a => a.bare = r.bare := by
  obtain ⟨kind, span⟩ := r
  refine cons (keyword .kwReserved) fun _ _ => bind (P := fun k => k.bare = kind.bare) ?_
    fun k hk => (mark .semicolon).last fun _ _ => congrArg (Reserved.mk · default) hk
  cases kind with
  | ranges rs =>
      exact left ((separated rs (of_decide_eq_true h) fun r _ => numberRange r).map
        fun _ ha => congrArg ReservedKind.ranges ha)
  | names ns =>
      exact right ((separated ns (of_decide_eq_true h) fun n _ => reservedName n).map
        fun _ ha => congrArg ReservedKind.names ha)

theorem extensionsStatement {e : Extensions} (h : e.isLegal = true) :
    Prints Rule.extensionsStatement e.pieces fun a => a.bare = e.bare := by
  obtain ⟨hne, ho⟩ := Bool.and_eq_true_iff.mp h
  unfold Extensions.pieces
  rw [List.cons_append, List.cons_append, List.append_assoc]
  refine cons (keyword .kwExtensions) fun _ _ =>
    (separated e.ranges (of_decide_eq_true hne) fun r _ => numberRange r).bind fun ranges hr =>
      (optionList? ho).bind fun options hoptions => (mark .semicolon).last fun _ _ => ?_
  show Extensions.mk (ranges.map NumberRange.bare) (options.map OptionList.bare) default = _
  rw [hr, hoptions]
  rfl

end Prints

end ProtoSchema
