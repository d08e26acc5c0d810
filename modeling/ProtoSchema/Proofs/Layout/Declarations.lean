/-
Where what is derived starts and ends.

The span of a statement or of a member runs from its first token to its last.  The spans are
put together in the last line of a production, from the keyword or the type in front and the
semicolon or the brace at the end; `Spans` says that nothing stands before the one or behind
the other.

A declaration with a body has two parts.  The first holds no opening brace, so the brace behind
it is the first one of the declaration, and from there to the end there is nothing but the
members.  Only a method may have a semicolon in the place of its body.  `Shapes` says this of a
rule, and says at the same time that a rule for anything else brings no body into the tree.
-/
import ProtoSchema.Proofs.Layout.Bodies

namespace ProtoSchema

open ProtoSchema.Parser (OneofMember EnumMember ServiceMember MessageMember)

/-- Whether a lexeme is an opening brace. -/
def Lexeme.isOpening : Lexeme → Bool
  | token (.mark .leftBrace) _ => true
  | _ => false

theorem Lexeme.isOpening_token {t : Token} (h : t ≠ .mark .leftBrace) (s : Span) :
    (Lexeme.token t s).isOpening = false := by
  unfold isOpening
  split
  · rename_i heq
    cases heq
    exact absurd rfl h
  · rfl

namespace Rule

variable {α β γ : Type}

/-! ### The first and the last token -/

/-- A rule whose values satisfy `P`. -/
def Gives (P : α → Prop) (R : Rule α) : Prop :=
  ∀ source ls a ds rest, R source ls a ds rest → P a

/-- A rule that takes lexemes from the front. -/
def Consumes (R : Rule α) : Prop := ∀ source ls a ds rest, R source ls a ds rest → rest <:+ ls

/-- What is derived starts with a token, at the place that its value gives. -/
def Starts (start : α → Nat) (R : Rule α) : Prop :=
  ∀ source ls a ds rest, R source ls a ds rest →
    ∃ t s tail, ls = .token t s :: tail ∧ s.start = start a

/-- What is derived ends with a token, at the place that its value gives. -/
def Ends (stop : α → Nat) (R : Rule α) : Prop :=
  ∀ source ls a ds rest, R source ls a ds rest →
    ∃ front t s, ls = front ++ .token t s :: rest ∧ s.stop = stop a

/-- What is derived stands from the start to the stop of a span of its value. -/
structure Spans (span : α → Span) (R : Rule α) : Prop where
  starts : Starts (fun a => (span a).start) R
  ends : Ends (fun a => (span a).stop) R

theorem Retells.consumes {closed : Bool} {b : α → γ} {R R' : Rule α} (h : Retells closed b R R') :
    Consumes R := by
  intro source ls a ds rest hR
  obtain ⟨front, rfl, -⟩ := h source source ls a ds rest hR
  exact List.suffix_append _ _

namespace Gives

variable {P : β → Prop} {R : Rule α} {S : α → Rule β}

theorem pure {b : β} (h : P b) : Gives P (Pure.pure b) := by
  rintro source ls _ _ _ ⟨rfl, -, -⟩
  exact h

theorem bind (h : ∀ a, Gives P (S a)) : Gives P (R >>= S) := by
  rintro source ls b ds rest ⟨a, ds₁, mid, ds₂, -, hs, -⟩
  exact h a source mid b ds₂ rest hs

end Gives

namespace Starts

variable {f : α → Nat} {g : β → Nat} {R : Rule α} {S : α → Rule β}

theorem token {form : Token → Span → Option α} (h : ∀ t s a, form t s = some a → s.start = f a) :
    Starts f (token form) := by
  rintro source ls a ds rest ⟨t, s, rfl, hf, -⟩
  exact ⟨t, s, rest, rfl, h t s a hf⟩

theorem mark (p : Punctuation) : Starts Span.start (mark p) := by
  rintro source ls s ds rest h
  obtain ⟨rfl, -⟩ := mark_iff.mp h
  exact ⟨_, s, rest, rfl, rfl⟩

theorem keyword (k : Keyword) : Starts Span.start (keyword k) := by
  rintro source ls s ds rest h
  obtain ⟨rfl, -⟩ := keyword_iff.mp h
  exact ⟨_, s, rest, rfl, rfl⟩

/-- A sequence starts where its first part does. -/
theorem first (hR : Starts f R) (hS : ∀ a, Gives (fun b => g b = f a) (S a)) :
    Starts g (R >>= S) := by
  rintro source ls b ds rest ⟨a, ds₁, mid, ds₂, hr, hs, -⟩
  obtain ⟨t, s, tail, rfl, hstart⟩ := hR source _ a ds₁ mid hr
  exact ⟨t, s, tail, rfl, hstart.trans (hS a source mid b ds₂ rest hs).symm⟩

theorem orElse {R' : Rule α} (hR : Starts f R) (hR' : Starts f R') : Starts f (R <|> R') := by
  rintro source ls a ds rest (h | h)
  · exact hR source ls a ds rest h
  · exact hR' source ls a ds rest h

/-- A sequence starts with a token that may be missing, or without it where it goes on. -/
theorem token? {form : Token → Span → Option α} {T : Option α → Rule β}
    (hsome : ∀ t s a, form t s = some a → Gives (fun b => g b = s.start) (T (some a)))
    (hnone : Starts g (T none)) : Starts g (token? form >>= T) := by
  intro source ls b ds rest h
  rcases token?_bind_iff.mp h with ⟨a, ds₁, mid, ds₂, ⟨t, s, rfl, hf, -⟩, hs, -⟩ | ⟨-, h⟩
  · exact ⟨t, s, mid, rfl, (hsome t s a hf source mid b ds₂ rest hs).symm⟩
  · exact hnone source ls b ds rest h

end Starts

namespace Ends

variable {f : α → Nat} {g : β → Nat} {R : Rule α} {S : α → Rule β}

theorem mark (p : Punctuation) : Ends Span.stop (mark p) := by
  rintro source ls s ds rest h
  obtain ⟨rfl, -⟩ := mark_iff.mp h
  exact ⟨[], _, s, rfl, rfl⟩

/-- A sequence ends where its last part does. -/
theorem after (hR : Consumes R) (hS : ∀ a, Ends g (S a)) : Ends g (R >>= S) := by
  rintro source ls b ds rest ⟨a, ds₁, mid, ds₂, hr, hs, -⟩
  obtain ⟨front₁, rfl⟩ := hR source ls a ds₁ mid hr
  obtain ⟨front₂, t, s, rfl, hstop⟩ := hS a source mid b ds₂ rest hs
  exact ⟨front₁ ++ front₂, t, s, (List.append_assoc _ _ _).symm, hstop⟩

/-- What is made of the last part. -/
theorem last (hR : Ends f R) (hS : ∀ a, ∃ b, S a = Pure.pure b ∧ g b = f a) :
    Ends g (R >>= S) := by
  rintro source ls c ds rest ⟨a, ds₁, mid, ds₂, hr, hs, -⟩
  obtain ⟨b, hb, hstop'⟩ := hS a
  rw [hb] at hs
  obtain ⟨rfl, rfl, rfl⟩ := hs
  obtain ⟨front, t, s, rfl, hstop⟩ := hR source ls a ds₁ _ hr
  exact ⟨front, t, s, rfl, hstop.trans hstop'.symm⟩

theorem orElse {R' : Rule α} (hR : Ends f R) (hR' : Ends f R') : Ends f (R <|> R') := by
  rintro source ls a ds rest (h | h)
  · exact hR source ls a ds rest h
  · exact hR' source ls a ds rest h

/-- A body ends with its closing brace. -/
theorem body {M : Rule α} (hM : Consumes M) :
    Ends (fun found : List α × Span => found.2.stop) (body M) := by
  refine after (Retells.mark _).consumes fun _ => after ?_ fun _ =>
    (mark _).last fun _ => ⟨_, rfl, rfl⟩
  intro source ls as ds rest h
  induction h with
  | nil ls => exact List.suffix_refl ls
  | semicolon others ih => exact ih.trans (List.suffix_cons _ _)
  | member first others ih => exact ih.trans (hM _ _ _ _ _ first)

end Ends

namespace Spans

variable {span : α → Span} {span' : β → Span} {R : Rule α}

theorem map {f : α → β} (hR : Spans span R) (hf : ∀ a, span' (f a) = span a) :
    Spans span' (f <$> R) where
  starts := hR.starts.first fun a => .pure (congrArg Span.start (hf a))
  ends := hR.ends.last fun a => ⟨f a, rfl, congrArg Span.stop (hf a)⟩

theorem fail (span : α → Span) : Spans span Rule.fail where
  starts := by rintro source ls a ds rest ⟨⟩
  ends := by rintro source ls a ds rest ⟨⟩

theorem switch {table : List (Keyword × Rule α)} {other : Rule α}
    (htable : ∀ k R, (k, R) ∈ table → Spans span R) (hother : Spans span other) :
    Spans span (switch table other) where
  starts := by
    rintro source ls a ds rest (⟨k, R, hmem, -, hR⟩ | ⟨-, hR⟩)
    · exact (htable k R hmem).starts source ls a ds rest hR
    · exact hother.starts source ls a ds rest hR
  ends := by
    rintro source ls a ds rest (⟨k, R, hmem, -, hR⟩ | ⟨-, hR⟩)
    · exact (htable k R hmem).ends source ls a ds rest hR
    · exact hother.ends source ls a ds rest hR

end Spans

/-! ### Parts without an opening brace -/

/-- A rule that takes no opening brace. -/
def Unopened (R : Rule α) : Prop :=
  ∀ source ls a ds rest, R source ls a ds rest →
    ∃ front, ls = front ++ rest ∧ ∀ l ∈ front, l.isOpening = false

namespace Unopened

variable {R R' : Rule α} {S : α → Rule β}

theorem pure (a : α) : Unopened (Pure.pure a) := by
  rintro source ls _ _ _ ⟨-, -, rfl⟩
  exact ⟨[], rfl, fun l hl => absurd hl List.not_mem_nil⟩

theorem bind (hR : Unopened R) (hS : ∀ a, Unopened (S a)) : Unopened (R >>= S) := by
  rintro source ls b ds rest ⟨a, ds₁, mid, ds₂, hr, hs, -⟩
  obtain ⟨front₁, rfl, h₁⟩ := hR source ls a ds₁ mid hr
  obtain ⟨front₂, rfl, h₂⟩ := hS a source mid b ds₂ rest hs
  exact ⟨front₁ ++ front₂, (List.append_assoc _ _ _).symm, List.forall_mem_append.mpr ⟨h₁, h₂⟩⟩

theorem orElse (hR : Unopened R) (hR' : Unopened R') : Unopened (R <|> R') := by
  rintro source ls a ds rest (h | h)
  · exact hR source ls a ds rest h
  · exact hR' source ls a ds rest h

theorem token {form : Token → Span → Option α} (h : ∀ s, form (.mark .leftBrace) s = none) :
    Unopened (token form) := by
  rintro source ls a ds rest ⟨t, s, rfl, hf, -⟩
  refine ⟨[.token t s], rfl, List.forall_mem_singleton.mpr (Lexeme.isOpening_token ?_ s)⟩
  rintro rfl
  rw [h] at hf
  cases hf

theorem mark {p : Punctuation} (h : p ≠ .leftBrace) : Unopened (mark p) :=
  token fun _ => if_neg fun heq => h (Token.mark.inj heq).symm

theorem keyword (k : Keyword) : Unopened (keyword k) :=
  token fun _ => if_neg Token.noConfusion

theorem token? {form : Token → Span → Option α} (h : ∀ s, form (.mark .leftBrace) s = none) :
    Unopened (token? form) := by
  refine orElse (bind (token h) fun a => pure (some a)) ?_
  rintro source ls a ds rest ⟨_, _, _, _, ⟨-, -, rfl⟩, ⟨-, -, rfl⟩, -⟩
  exact ⟨[], rfl, fun l hl => absurd hl List.not_mem_nil⟩

theorem many (hR : Unopened R) : Unopened (many R) := by
  intro source ls as ds rest h
  induction h with
  | nil ls => exact ⟨[], rfl, fun l hl => absurd hl List.not_mem_nil⟩
  | cons first others ih =>
      obtain ⟨front₁, rfl, h₁⟩ := hR _ _ _ _ _ first
      obtain ⟨front₂, rfl, h₂⟩ := ih
      exact ⟨front₁ ++ front₂, (List.append_assoc _ _ _).symm, List.forall_mem_append.mpr ⟨h₁, h₂⟩⟩

theorem ident : Unopened ident := token fun _ => rfl

theorem dottedName : Unopened dottedName :=
  ident.bind fun _ => (many ((mark (by decide)).bind fun _ => ident)).bind fun _ => pure _

theorem typeName : Unopened typeName :=
  orElse ((mark (by decide)).bind fun _ => dottedName.bind fun _ => pure _)
    (dottedName.bind fun _ => pure _)

theorem methodType : Unopened methodType := by
  refine (mark (by decide)).bind fun _ => ?_
  refine (token? fun _ => if_neg Token.noConfusion).bind fun _ => ?_
  exact typeName.bind fun _ => (mark (by decide)).bind fun _ => pure _

end Unopened

/-! ### Declarations with a body -/

theorem Members.imp {M N : Rule α} (hMN : ∀ source ls a ds rest, M source ls a ds rest →
    N source ls a ds rest) {source : List Char} {ls rest : List Lexeme} {as : List α}
    {ds : List Diagnostic} (h : Members M source ls as ds rest) :
    Members N source ls as ds rest := by
  induction h with
  | nil ls => exact .nil ls
  | semicolon others ih => exact .semicolon ih
  | member first others ih => exact .member (hMN _ _ _ _ _ first) ih

/--
The end of a declaration, from the brace that opens its body.  The second number is where it
ends, and the lists are the spans of its members and the bodies in them.
-/
inductive Enclosed (k : BodyKind) (source : List Char) (rest : List Lexeme) :
    List Lexeme → Nat → List Span → List BodyNode → Prop
  | body {opening closing : Span} {inner : List Lexeme} {ms : List k.Member} {members : List Span}
      (derived : Members k.rule source inner ms [] (.token (.mark .rightBrace) closing :: rest))
      (gathered : members.Perm (ms.map k.span)) :
      Enclosed k source rest (.token (.mark .leftBrace) opening :: inner) closing.stop members
        (ms.flatMap k.bodies)
  /-- A method may do without a body. -/
  | semicolon {s : Span} (method : k = .method) :
      Enclosed k source rest (.token (.mark .semicolon) s :: rest) s.stop [] []

/-- What stands at a span: a declaration with a body, or something that brings no body. -/
inductive Shaped (source : List Char) (ls rest : List Lexeme) (s : Span) : List BodyNode → Prop
  | plain : Shaped source ls rest s []
  | declaration {k : BodyKind} {header tail : List Lexeme} {members : List Span}
      {inner : List BodyNode} (tokens : ls = header ++ tail)
      (unopened : ∀ l ∈ header, l.isOpening = false)
      (enclosed : Enclosed k source rest tail s.stop members inner) :
      Shaped source ls rest s (⟨k, s, members⟩ :: inner)

/-- A body with nothing in front of it. -/
theorem Enclosed.shaped {k : BodyKind} {source : List Char} {ls rest : List Lexeme} {s : Span}
    {members : List Span} {inner : List BodyNode}
    (h : Enclosed k source rest ls s.stop members inner) :
    Shaped source ls rest s (⟨k, s, members⟩ :: inner) :=
  .declaration (List.nil_append ls).symm (fun _ hl => absurd hl List.not_mem_nil) h

/-- A rule for values that have a span and some bodies, as long as it remarks on nothing. -/
def Shapes (span : α → Span) (bodies : α → List BodyNode) (R : Rule α) : Prop :=
  ∀ source ls a rest, R source ls a [] rest → Shaped source ls rest (span a) (bodies a)

namespace Shapes

variable {span : α → Span} {bodies : α → List BodyNode} {span' : β → Span}
  {bodies' : β → List BodyNode} {R : Rule α} {S : α → Rule β}

theorem plain (h : Gives (fun a => bodies a = []) R) : Shapes span bodies R := by
  intro source ls a rest hR
  rw [h source ls a [] rest hR]
  exact .plain

theorem map {f : α → β} (hR : Shapes span bodies R) (hspan : ∀ a, span' (f a) = span a)
    (hbodies : ∀ a, bodies' (f a) = bodies a) : Shapes span' bodies' (f <$> R) := by
  rintro source ls _ rest ⟨a, ds₁, mid, ds₂, hr, ⟨rfl, rfl, rfl⟩, hds⟩
  obtain ⟨rfl, -⟩ := List.nil_eq_append_iff.mp hds
  rw [hspan, hbodies]
  exact hR source ls a _ hr

theorem fail : Shapes span bodies Rule.fail := by
  rintro source ls a rest ⟨⟩

theorem switch {table : List (Keyword × Rule α)} {other : Rule α}
    (htable : ∀ k R, (k, R) ∈ table → Shapes span bodies R) (hother : Shapes span bodies other) :
    Shapes span bodies (switch table other) := by
  rintro source ls a rest (⟨k, R, hmem, -, hR⟩ | ⟨-, hR⟩)
  · exact htable k R hmem source ls a rest hR
  · exact hother source ls a rest hR

/-- What stands in front of a body belongs to the declaration. -/
theorem after (hR : Unopened R) (hS : ∀ a, Shapes span' bodies' (S a)) :
    Shapes span' bodies' (R >>= S) := by
  rintro source ls b rest ⟨a, ds₁, mid, ds₂, hr, hs, hds⟩
  obtain ⟨rfl, rfl⟩ := List.nil_eq_append_iff.mp hds
  obtain ⟨front, rfl, hfront⟩ := hR source ls a [] mid hr
  have hshaped := hS a source mid b rest hs
  generalize bodies' b = bs at hshaped
  cases hshaped with
  | plain => exact .plain
  | declaration tokens unopened enclosed =>
      rw [tokens, ← List.append_assoc]
      exact .declaration rfl (List.forall_mem_append.mpr ⟨hfront, unopened⟩) enclosed

/-- A body whose members are gathered, and what is made of it. -/
theorem body {k : BodyKind} {M : Rule k.Member} {T : List k.Member × Span → Rule β}
    (build : List k.Member → Span → β) (hT : ∀ ms s, T (ms, s) = Pure.pure (build ms s))
    (members : List k.Member → List Span) (hmembers : ∀ ms, (members ms).Perm (ms.map k.span))
    (hM : ∀ source ls m ds rest, M source ls m ds rest → k.rule source ls m ds rest)
    (hstop : ∀ ms s, (span' (build ms s)).stop = s.stop)
    (hbodies : ∀ ms s, bodies' (build ms s) =
      ⟨k, span' (build ms s), members ms⟩ :: ms.flatMap k.bodies) :
    Shapes span' bodies' (Rule.body M >>= T) := by
  rintro source ls b rest ⟨⟨ms, s⟩, ds₁, mid, ds₂, hbody, hpure, hds⟩
  rw [hT] at hpure
  obtain ⟨rfl, rfl, rfl⟩ := hpure
  obtain ⟨rfl, -⟩ := List.nil_eq_append_iff.mp hds
  obtain ⟨opening, _, inner, _, hopen, ⟨_, _, _, _, hmem, ⟨_, _, _, _, hclose, ⟨heq, rfl, rfl⟩, -⟩,
    hds₂⟩, hds₁⟩ := hbody
  obtain ⟨-, rfl⟩ := List.nil_eq_append_iff.mp hds₁
  obtain ⟨rfl, -⟩ := List.nil_eq_append_iff.mp hds₂
  obtain ⟨rfl, -⟩ := mark_iff.mp hopen
  obtain ⟨rfl, -⟩ := mark_iff.mp hclose
  obtain ⟨rfl, rfl⟩ := Prod.mk.inj heq
  rw [hbodies]
  refine Enclosed.shaped ?_
  rw [hstop]
  exact .body (hmem.imp hM) (hmembers ms)

end Shapes

/-! ### Statements and members -/

namespace Starts

theorem ident : Starts (fun n : Ident => n.span.start) ident := by
  refine token fun t s a h => ?_
  cases t with
  | ident word =>
      cases h
      rfl
  | _ => cases h

theorem dottedName : Starts (fun n : DottedName => n.span.start) dottedName :=
  ident.first fun _ => .bind fun _ => .pure rfl

theorem typeName : Starts (fun n : TypeName => n.span.start) typeName :=
  orElse ((mark _).first fun _ => .bind fun _ => .pure rfl)
    (dottedName.first fun _ => .pure rfl)

theorem typeUse : Starts (fun u : TypeUse × Span => u.2.start) typeUse := by
  refine token? (fun t s a h => ?_) (typeName.first fun _ => .pure rfl)
  cases t with
  | ident word =>
      obtain ⟨type, -, rfl⟩ := Option.map_eq_some_iff.mp h
      exact .pure rfl
  | _ => cases h

theorem fieldKind : Starts (fun k : FieldKind => k.span.start) fieldKind := by
  refine token? (fun t s a h => ?_) ?_
  · split at h
    · cases h
      refine .bind fun _ => .bind ?_
      rintro ⟨key, keySpan⟩
      refine .bind fun _ => .bind ?_
      rintro ⟨value, valueSpan⟩
      exact .bind fun _ => .pure rfl
    · cases h
  · refine typeUse.first ?_
    rintro ⟨type, s⟩
    exact .pure rfl

theorem field : Starts (fun f : Field => f.span.start) field := by
  refine token? (fun t s a h => ?_) (fieldKind.first fun _ => ?_)
  · cases t with
    | ident word =>
        obtain ⟨label, -, rfl⟩ := Option.map_eq_some_iff.mp h
        exact .bind fun _ => .bind fun _ => .bind fun _ => .bind fun _ => .bind fun _ =>
          .bind fun _ => .pure rfl
    | _ => cases h
  · exact .bind fun _ => .bind fun _ => .bind fun _ => .bind fun _ => .bind fun _ => .pure rfl

end Starts

namespace Spans

theorem optionStatement : Spans OptionStatement.span optionStatement where
  starts := (Starts.keyword _).first fun _ => .bind fun _ => .bind fun _ => .pure rfl
  ends := .after (Retells.keyword _).consumes fun _ =>
    .after Retells.optionSetting.consumes fun _ =>
    (Ends.mark _).last fun _ => ⟨_, rfl, rfl⟩

theorem field : Spans Field.span field where
  starts := .field
  ends := .after Retells.label?.consumes fun _ => .after Retells.fieldKind.consumes fun _ =>
    .after Retells.ident.consumes fun _ => .after (Retells.mark _).consumes fun _ =>
    .after Retells.integer.consumes fun _ => .after (Retells.optional Retells.optionList).consumes
    fun _ => (Ends.mark _).last fun _ => ⟨_, rfl, rfl⟩

theorem reservedStatement : Spans Reserved.span reservedStatement where
  starts := (Starts.keyword _).first fun _ => .bind fun _ => .bind fun _ => .pure rfl
  ends := by
    refine .after (Retells.keyword _).consumes fun _ => .after ?_ fun _ =>
      (Ends.mark _).last fun _ => ⟨_, rfl, rfl⟩
    rintro source ls _ ds rest (⟨a, ds₁, mid, ds₂, h, ⟨rfl, rfl, rfl⟩, -⟩ |
      ⟨a, ds₁, mid, ds₂, h, ⟨rfl, rfl, rfl⟩, -⟩)
    · exact (Retells.separated Retells.numberRange).consumes source ls a ds₁ _ h
    · exact (Retells.separated Retells.reservedName).consumes source ls a ds₁ _ h

theorem extensionsStatement : Spans Extensions.span extensionsStatement where
  starts := (Starts.keyword _).first fun _ => .bind fun _ => .bind fun _ => .bind fun _ => .pure rfl
  ends := .after (Retells.keyword _).consumes fun _ =>
    .after (Retells.separated Retells.numberRange).consumes fun _ =>
    .after (Retells.optional Retells.optionList).consumes fun _ =>
    (Ends.mark _).last fun _ => ⟨_, rfl, rfl⟩

theorem enumValue : Spans EnumValue.span enumValue where
  starts := Starts.ident.first fun _ => .bind fun _ => .bind fun _ => .bind fun _ => .bind fun _ =>
    .pure rfl
  ends := .after Retells.ident.consumes fun _ => .after (Retells.mark _).consumes fun _ =>
    .after Retells.integer.consumes fun _ => .after (Retells.optional Retells.optionList).consumes
    fun _ => (Ends.mark _).last fun _ => ⟨_, rfl, rfl⟩

theorem oneofMember : Spans OneofMember.span oneofMember := by
  refine switch (fun k R h => ?_) (field.map fun _ => rfl)
  obtain ⟨rfl, rfl⟩ : k = .kwOption ∧ R = _ := by simpa using h
  exact optionStatement.map fun _ => rfl

theorem oneof : Spans Oneof.span oneof where
  starts := (Starts.keyword _).first fun _ => .bind fun _ => .bind fun _ => .pure rfl
  ends := .after (Retells.keyword _).consumes fun _ => .after Retells.ident.consumes fun _ =>
    (Ends.body Retells.oneofMember.consumes).last fun _ => ⟨_, rfl, rfl⟩

theorem extend : Spans Extend.span extend where
  starts := (Starts.keyword _).first fun _ => .bind fun _ => .bind fun _ => .pure rfl
  ends := .after (Retells.keyword _).consumes fun _ => .after Retells.typeName.consumes fun _ =>
    (Ends.body Retells.field.consumes).last fun _ => ⟨_, rfl, rfl⟩

theorem enumMember : Spans EnumMember.span enumMember := by
  refine switch (fun k R h => ?_) (enumValue.map fun _ => rfl)
  obtain ⟨rfl, rfl⟩ | ⟨rfl, rfl⟩ : (k = .kwOption ∧ R = _) ∨ (k = .kwReserved ∧ R = _) := by
    simpa using h
  · exact optionStatement.map fun _ => rfl
  · exact reservedStatement.map fun _ => rfl

theorem enum : Spans Enum.span enum where
  starts := (Starts.keyword _).first fun _ => .bind fun _ => .bind fun _ => .pure rfl
  ends := .after (Retells.keyword _).consumes fun _ => .after Retells.ident.consumes fun _ =>
    (Ends.body Retells.enumMember.consumes).last fun _ => ⟨_, rfl, rfl⟩

theorem method : Spans Method.span method where
  starts := (Starts.keyword _).first fun _ => .bind fun _ => .bind fun _ => .bind fun _ =>
    .bind fun _ => .bind fun _ => .pure rfl
  ends := by
    have hend : Ends (fun found : List OptionStatement × Span => found.2.stop) methodEnd :=
      .orElse ((Ends.mark _).last fun _ => ⟨_, rfl, rfl⟩)
        (.body Retells.optionStatement.consumes)
    exact .after (Retells.keyword _).consumes fun _ => .after Retells.ident.consumes fun _ =>
      .after Retells.methodType.consumes fun _ => .after (Retells.keyword _).consumes fun _ =>
      .after Retells.methodType.consumes fun _ => hend.last fun _ => ⟨_, rfl, rfl⟩

theorem serviceMember : Spans ServiceMember.span serviceMember := by
  refine switch (fun k R h => ?_) (fail _)
  obtain ⟨rfl, rfl⟩ | ⟨rfl, rfl⟩ : (k = .kwOption ∧ R = _) ∨ (k = .kwRpc ∧ R = _) := by
    simpa using h
  · exact optionStatement.map fun _ => rfl
  · exact method.map fun _ => rfl

theorem service : Spans Service.span service where
  starts := (Starts.keyword _).first fun _ => .bind fun _ => .bind fun _ => .pure rfl
  ends := .after (Retells.keyword _).consumes fun _ => .after Retells.ident.consumes fun _ =>
    (Ends.body Retells.serviceMember.consumes).last fun _ => ⟨_, rfl, rfl⟩

theorem messageUpTo (depth : Nat) : Spans Message.span (messageUpTo depth) := by
  cases depth with
  | zero => exact fail _
  | succ depth =>
      refine ⟨(Starts.keyword _).first fun _ => .bind fun _ => .bind fun _ => .pure rfl, ?_⟩
      exact .after (Retells.keyword _).consumes fun _ => .after Retells.ident.consumes fun _ =>
        (Ends.body (Retells.messageMember (Retells.messageUpTo depth)).consumes).last
          fun _ => ⟨_, rfl, rfl⟩

theorem message : Spans Message.span message where
  starts := fun source ls m ds rest ⟨depth, h⟩ => (messageUpTo depth).starts source ls m ds rest h
  ends := fun source ls m ds rest ⟨depth, h⟩ => (messageUpTo depth).ends source ls m ds rest h

theorem messageMember : Spans MessageMember.span (messageMember Rule.message) := by
  refine switch (fun k R h => ?_) (field.map fun _ => rfl)
  simp only [List.mem_cons, Prod.mk.injEq, List.not_mem_nil, or_false] at h
  rcases h with ⟨rfl, rfl⟩ | ⟨rfl, rfl⟩ | ⟨rfl, rfl⟩ | ⟨rfl, rfl⟩ | ⟨rfl, rfl⟩ | ⟨rfl, rfl⟩ |
    ⟨rfl, rfl⟩
  · exact message.map fun _ => rfl
  · exact enum.map fun _ => rfl
  · exact oneof.map fun _ => rfl
  · exact extend.map fun _ => rfl
  · exact optionStatement.map fun _ => rfl
  · exact reservedStatement.map fun _ => rfl
  · exact extensionsStatement.map fun _ => rfl

theorem dialectStatement : Spans Statement.span dialectStatement where
  starts := by
    refine (Starts.keyword _).first fun _ => .bind fun _ => .bind fun value => ?_
    dsimp only
    split
    · exact .bind fun _ => .bind fun _ => .pure rfl
    · exact .bind fun _ => .pure rfl
  ends := by
    refine .after (Retells.keyword _).consumes fun _ => .after (Retells.mark _).consumes fun _ =>
      .after Retells.stringLiteral.consumes fun value => ?_
    dsimp only
    split
    · exact .after (Retells.remark rfl).consumes fun _ => (Ends.mark _).last fun _ => ⟨_, rfl, rfl⟩
    · exact (Ends.mark _).last fun _ => ⟨_, rfl, rfl⟩

theorem packageStatement : Spans Package.span packageStatement where
  starts := (Starts.keyword _).first fun _ => .bind fun _ => .bind fun _ => .pure rfl
  ends := .after (Retells.keyword _).consumes fun _ => .after Retells.dottedName.consumes fun _ =>
    (Ends.mark _).last fun _ => ⟨_, rfl, rfl⟩

theorem importStatement : Spans Import.span importStatement where
  starts := by
    refine (Starts.keyword _).first fun _ => .bind fun _ => .bind fun path => ?_
    dsimp only
    split
    · exact .bind fun _ => .bind fun _ => .pure rfl
    · exact .bind fun _ => .pure rfl
  ends := by
    refine .after (Retells.keyword _).consumes fun _ =>
      .after (Retells.optional Retells.importKind).consumes fun _ =>
      .after Retells.textLiteral.consumes fun path => ?_
    dsimp only
    split
    · exact .after (Retells.remark rfl).consumes fun _ => (Ends.mark _).last fun _ => ⟨_, rfl, rfl⟩
    · exact (Ends.mark _).last fun _ => ⟨_, rfl, rfl⟩

/-- A statement stands where its node says. -/
theorem statement : Spans Statement.span statement := by
  refine switch (fun k R h => ?_) (fail _)
  simp only [List.mem_cons, Prod.mk.injEq, List.not_mem_nil, or_false] at h
  rcases h with ⟨rfl, rfl⟩ | ⟨rfl, rfl⟩ | ⟨rfl, rfl⟩ | ⟨rfl, rfl⟩ | ⟨rfl, rfl⟩ | ⟨rfl, rfl⟩ |
    ⟨rfl, rfl⟩ | ⟨rfl, rfl⟩
  · exact dialectStatement
  · exact packageStatement.map fun _ => rfl
  · exact importStatement.map fun _ => rfl
  · exact optionStatement.map fun _ => rfl
  · exact message.map fun _ => rfl
  · exact enum.map fun _ => rfl
  · exact extend.map fun _ => rfl
  · exact service.map fun _ => rfl

end Spans

/-! ### What a declaration brings into the tree -/

namespace Shapes

/-- Members without a body bring none. -/
theorem flatMap_nil {M β : Type} (ms : List M) : ms.flatMap (fun _ => ([] : List β)) = [] := by
  simp

theorem oneof : Shapes Oneof.span Oneof.bodies oneof := by
  refine after (.keyword _) fun start => after .ident fun name => ?_
  refine body (k := .oneof) (M := Rule.oneofMember)
    (fun ms s => ⟨name, ms.filterMap OneofMember.option?, ms.filterMap OneofMember.field?,
      start.through s⟩) (fun _ _ => rfl) _ (fun ms => (Oneof.perm_members name ms start).map _)
    (fun _ _ _ _ _ h => h) (fun _ _ => rfl) fun ms s => ?_
  exact congrArg (_ :: ·) (flatMap_nil ms).symm

theorem extend : Shapes Extend.span Extend.bodies extend := by
  refine after (.keyword _) fun start => after .typeName fun extendee => ?_
  refine body (k := .extend) (M := Rule.field) (fun fields s => ⟨extendee, fields, start.through s⟩)
    (fun _ _ => rfl) _ (fun fields => .refl (fields.map Field.span)) (fun _ _ _ _ _ h => h)
    (fun _ _ => rfl) fun fields s => ?_
  exact congrArg (_ :: ·) (flatMap_nil fields).symm

theorem enum : Shapes Enum.span Enum.bodies enum := by
  refine after (.keyword _) fun start => after .ident fun name => ?_
  refine body (k := .enum) (M := Rule.enumMember)
    (fun ms s => ⟨name, ms.filterMap EnumMember.option?, ms.filterMap EnumMember.value?,
      ms.filterMap EnumMember.reserved?, start.through s⟩) (fun _ _ => rfl) _
    (fun ms => (Enum.perm_members name ms start).map _) (fun _ _ _ _ _ h => h) (fun _ _ => rfl)
    fun ms s => ?_
  exact congrArg (_ :: ·) (flatMap_nil ms).symm

theorem method : Shapes Method.span Method.bodies method := by
  refine after (.keyword _) fun start => after .ident fun name => after .methodType ?_
  rintro ⟨clientStreaming, input⟩
  refine after (.keyword _) fun _ => after .methodType ?_
  rintro ⟨serverStreaming, output⟩
  intro source ls m rest h
  rcases orElse_bind_iff.mp h with h | h
  · obtain ⟨_, _, _, _, ⟨s, _, _, _, hmark, ⟨rfl, rfl, rfl⟩, -⟩, ⟨rfl, rfl, rfl⟩, -⟩ := h
    obtain ⟨rfl, -⟩ := mark_iff.mp hmark
    exact Enclosed.shaped (.semicolon rfl)
  · refine body (k := .method) (M := Rule.optionStatement)
      (fun options s => ⟨name, input, output, options, clientStreaming, serverStreaming,
        start.through s⟩) (fun _ _ => rfl) _
      (fun options => .refl (options.map OptionStatement.span)) (fun _ _ _ _ _ h => h)
      (fun _ _ => rfl) (fun options s => ?_) source ls m rest h
    exact congrArg (_ :: ·) (flatMap_nil options).symm

theorem serviceMember : Shapes ServiceMember.span ServiceMember.bodies serviceMember := by
  refine switch (fun k R h => ?_) fail
  obtain ⟨rfl, rfl⟩ | ⟨rfl, rfl⟩ : (k = .kwOption ∧ R = _) ∨ (k = .kwRpc ∧ R = _) := by
    simpa using h
  · exact .plain (.bind fun _ => .pure rfl)
  · exact method.map (fun _ => rfl) fun _ => rfl

theorem service : Shapes Service.span Service.bodies service := by
  refine after (.keyword _) fun start => after .ident fun name => ?_
  refine body (k := .service) (M := Rule.serviceMember)
    (fun ms s => ⟨name, ms.filterMap ServiceMember.option?, ms.filterMap ServiceMember.method?,
      start.through s⟩) (fun _ _ => rfl) _ (fun ms => (Service.perm_members name ms start).map _)
    (fun _ _ _ _ _ h => h) (fun _ _ => rfl) fun ms s => ?_
  exact congrArg (_ :: ·) (Service.flatMap_bodies ms)

theorem message : Shapes Message.span Message.bodies message := by
  rintro source ls m rest ⟨depth, h⟩
  cases depth with
  | zero => cases h
  | succ depth =>
      refine after (.keyword _) (fun start => after .ident fun name => ?_) source ls m rest h
      refine body (k := .message) (M := Rule.messageMember (messageUpTo depth))
        (fun ms s => ⟨name, ms.filterMap MessageMember.item?, ms.filterMap MessageMember.option?,
          ms.filterMap MessageMember.reserved?, ms.filterMap MessageMember.extensions?,
          start.through s⟩) (fun _ _ => rfl) _
        (fun ms => (Message.perm_members name ms start).map _) (fun source ls a ds rest h => ?_)
        (fun _ _ => rfl) fun ms s => ?_
      · exact messageMember_mono (fun m ds rest hm => ⟨depth, hm⟩) h
      · rw [Message.bodies_eq]
        exact congrArg (_ :: ·) (Message.flatMap_bodies ms)

theorem messageMember :
    Shapes MessageMember.span MessageMember.bodies (messageMember Rule.message) := by
  refine switch (fun k R h => ?_) (.plain (.bind fun _ => .pure rfl))
  simp only [List.mem_cons, Prod.mk.injEq, List.not_mem_nil, or_false] at h
  rcases h with ⟨rfl, rfl⟩ | ⟨rfl, rfl⟩ | ⟨rfl, rfl⟩ | ⟨rfl, rfl⟩ | ⟨rfl, rfl⟩ | ⟨rfl, rfl⟩ |
    ⟨rfl, rfl⟩
  · exact message.map (fun _ => rfl) fun _ => rfl
  · exact enum.map (fun _ => rfl) fun _ => rfl
  · exact oneof.map (fun _ => rfl) fun _ => rfl
  · exact extend.map (fun _ => rfl) fun _ => rfl
  · exact .plain (.bind fun _ => .pure rfl)
  · exact .plain (.bind fun _ => .pure rfl)
  · exact .plain (.bind fun _ => .pure rfl)

/-- A statement brings the bodies of its declaration. -/
theorem statement : Shapes Statement.span Statement.bodies statement := by
  refine switch (fun k R h => ?_) fail
  simp only [List.mem_cons, Prod.mk.injEq, List.not_mem_nil, or_false] at h
  rcases h with ⟨rfl, rfl⟩ | ⟨rfl, rfl⟩ | ⟨rfl, rfl⟩ | ⟨rfl, rfl⟩ | ⟨rfl, rfl⟩ | ⟨rfl, rfl⟩ |
    ⟨rfl, rfl⟩ | ⟨rfl, rfl⟩
  · refine .plain (.bind fun _ => .bind fun _ => .bind fun value => ?_)
    dsimp only
    split
    · exact .bind fun _ => .bind fun _ => .pure rfl
    · exact .bind fun _ => .pure rfl
  · exact .plain (.bind fun _ => .pure rfl)
  · exact .plain (.bind fun _ => .pure rfl)
  · exact .plain (.bind fun _ => .pure rfl)
  · exact message.map (fun _ => rfl) fun _ => rfl
  · exact enum.map (fun _ => rfl) fun _ => rfl
  · exact extend.map (fun _ => rfl) fun _ => rfl
  · exact service.map (fun _ => rfl) fun _ => rfl

end Shapes

end Rule

/-! ### Every kind of body -/

namespace BodyKind

/-- A member stands where its node says. -/
theorem spans_rule (k : BodyKind) : Rule.Spans k.span k.rule := by
  cases k with
  | message => exact .messageMember
  | oneof => exact .oneofMember
  | extend => exact .field
  | enum => exact .enumMember
  | service => exact .serviceMember
  | method => exact .optionStatement

/-- A member brings the bodies of its declaration. -/
theorem shapes_rule (k : BodyKind) : Rule.Shapes k.span k.bodies k.rule := by
  cases k with
  | message => exact .messageMember
  | service => exact .serviceMember
  | oneof => exact .plain fun _ _ _ _ _ _ => rfl
  | extend => exact .plain fun _ _ _ _ _ _ => rfl
  | enum => exact .plain fun _ _ _ _ _ _ => rfl
  | method => exact .plain fun _ _ _ _ _ _ => rfl

end BodyKind

end ProtoSchema
