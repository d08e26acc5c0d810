/-
What a rule makes of printed pieces.

`Prints R ps P` says that the pieces `ps` can be read back, and that wherever lexemes spell
them and then others, the rule `R` derives from them a value with the property `P`, without
a remark, and leaves lexemes that spell the others.  One lemma for each way to combine
rules says how the pieces of a whole are made of those of its parts.  Where a rule looks at
the next token before it decides, the first of the pieces says what that token is.
-/
import ProtoSchema.Proofs.Grammar.Choice
import ProtoSchema.Proofs.Rendering.Spells

namespace ProtoSchema

/-- The token that lexemes start with which spell certain pieces. -/
def Piece.first? : List Piece → Option Token
  | .token t :: _ => some t
  | .block _ :: _ => some (.mark .leftBrace)
  | [] => none

theorem Spells.nextToken?_eq {source : List Char} {ls : List Lexeme} {ps : List Piece}
    (h : Spells source ls ps) : nextToken? ls = Piece.first? ps := by
  cases h <;> rfl

theorem Piece.first?_append {ps : List Piece} {t : Token} (h : first? ps = some t)
    (tail : List Piece) : first? (ps ++ tail) = some t := by
  cases ps with
  | nil => cases h
  | cons p ps => cases p <;> exact h

/-- Instances of a rule are members without semicolons between them. -/
theorem Rule.Many.members {α : Type} {R : Rule α} {source : List Char} {ls rest : List Lexeme}
    {as : List α} {ds : List Diagnostic} (h : Many R source ls as ds rest) :
    Members R source ls as ds rest := by
  induction h with
  | nil ls => exact .nil ls
  | cons first _ ih => exact .member first ih

/-- From readable pieces a rule derives a value with a property, and nothing to remark. -/
structure Prints {α : Type} (R : Rule α) (ps : List Piece) (P : α → Prop) : Prop where
  readable : ∀ p ∈ ps, p.isReadable = true
  derives : ∀ (source : List Char) (ls : List Lexeme) (tail : List Piece),
    Spells source ls (ps ++ tail) →
      ∃ a rest, R source ls a [] rest ∧ P a ∧ Spells source rest tail

namespace Prints

variable {α β : Type} {R : Rule α} {ps qs : List Piece} {P : α → Prop} {Q : β → Prop}

/-! ### Sequences and alternatives -/

theorem pure {a : α} (h : P a) : Prints (Pure.pure a) [] P where
  readable := fun _ hp => absurd hp List.not_mem_nil
  derives := fun _ ls _ hs => ⟨a, ls, ⟨rfl, rfl, rfl⟩, h, hs⟩

/-- Readable pieces have a text, so there is something to derive a value from. -/
theorem exists_value (h : Prints R ps P) : ∃ a, P a := by
  have hs := spells_render ps [] h.readable
  rw [← List.append_nil ps] at hs
  obtain ⟨a, _, _, ha, _⟩ := h.derives _ _ [] hs
  exact ⟨a, ha⟩

theorem bind {S : α → Rule β} (hR : Prints R ps P) (hS : ∀ a, P a → Prints (S a) qs Q) :
    Prints (R >>= S) (ps ++ qs) Q where
  readable := by
    obtain ⟨a, ha⟩ := hR.exists_value
    intro p hp
    rcases List.mem_append.mp hp with hp | hp
    · exact hR.readable p hp
    · exact (hS a ha).readable p hp
  derives := by
    intro source ls tail hs
    rw [List.append_assoc] at hs
    obtain ⟨a, mid, hr, ha, hs⟩ := hR.derives source ls (qs ++ tail) hs
    obtain ⟨b, rest, hb, hq, hs⟩ := (hS a ha).derives source mid tail hs
    exact ⟨b, rest, ⟨a, [], mid, [], hr, hb, rfl⟩, hq, hs⟩

/-- A single piece, and then others. -/
theorem cons {S : α → Rule β} {p : Piece} (hR : Prints R [p] P)
    (hS : ∀ a, P a → Prints (S a) qs Q) : Prints (R >>= S) (p :: qs) Q := bind hR hS

/-- What is derived has a further property, or is derived by a further rule. -/
theorem mono {S : Rule α} {P' : α → Prop} (h : Prints R ps P)
    (hR : ∀ source ls a rest, R source ls a [] rest → S source ls a [] rest)
    (hP : ∀ a, P a → P' a) : Prints S ps P' where
  readable := h.readable
  derives := by
    intro source ls tail hs
    obtain ⟨a, rest, hr, ha, hs⟩ := h.derives source ls tail hs
    exact ⟨a, rest, hR _ _ _ _ hr, hP a ha, hs⟩

theorem imp {P' : α → Prop} (h : Prints R ps P) (hP : ∀ a, P a → P' a) : Prints R ps P' :=
  h.mono (fun _ _ _ _ hr => hr) hP

theorem left {S : Rule α} (h : Prints R ps P) : Prints (R <|> S) ps P :=
  h.mono (fun _ _ _ _ hr => Or.inl hr) fun _ ha => ha

theorem right {S : Rule α} (h : Prints S ps P) : Prints (R <|> S) ps P :=
  h.mono (fun _ _ _ _ hr => Or.inr hr) fun _ ha => ha

/-- A rule whose value is the result, with a last change to it. -/
theorem last {f : α → β} (h : Prints R ps P) (hf : ∀ a, P a → Q (f a)) :
    Prints (R >>= fun a => Pure.pure (f a)) ps Q := by
  rw [← List.append_nil ps]
  exact h.bind fun a ha => pure (hf a ha)

theorem map {f : α → β} (h : Prints R ps P) (hf : ∀ a, P a → Q (f a)) : Prints (f <$> R) ps Q := by
  rw [map_eq_pure_bind]
  exact h.last hf

theorem optional_some (h : Prints R ps P) :
    Prints (Rule.optional R) ps fun a? => ∃ a, a? = some a ∧ P a :=
  left (h.map fun a ha => ⟨a, rfl, ha⟩)

theorem optional_none : Prints (Rule.optional R) [] fun a? => a? = none := right (pure rfl)

/-! ### Tokens -/

theorem token {form : Token → Span → Option α} {t : Token} (ht : t.isReadable = true)
    (h : ∀ s, ∃ a, form t s = some a ∧ P a) : Prints (Rule.token form) [.token t] P where
  readable := List.forall_mem_singleton.mpr ht
  derives := by
    intro source ls tail hs
    cases hs with
    | @token _ s rest _ others =>
        obtain ⟨a, hf, ha⟩ := h s
        exact ⟨a, rest, ⟨t, s, rfl, hf, rfl⟩, ha, others⟩

theorem mark (p : Punctuation) : Prints (Rule.mark p) [Piece.mark p] fun _ => True :=
  token rfl fun s => ⟨s, if_pos rfl, trivial⟩

theorem keyword (k : Keyword) : Prints (Rule.keyword k) [Piece.keyword k] fun _ => True :=
  token (by cases k <;> decide) fun s => ⟨s, if_pos rfl, trivial⟩

theorem token?_some {form : Token → Span → Option α} {t : Token} (ht : t.isReadable = true)
    (h : ∀ s, ∃ a, form t s = some a ∧ P a) :
    Prints (Rule.token? form) [.token t] fun a? => ∃ a, a? = some a ∧ P a :=
  left ((token ht h).map fun a ha => ⟨a, rfl, ha⟩)

/-- A token that may be missing is, where the pieces start with another one. -/
theorem token?_none {form : Token → Span → Option α} {S : Option α → Rule β} {t : Token}
    (ht : Piece.first? qs = some t) (hf : ∀ s, form t s = none) (hS : Prints (S none) qs Q) :
    Prints (Rule.token? form >>= S) qs Q where
  readable := hS.readable
  derives := by
    intro source ls tail hs
    have hn : nextToken? ls = some t := by
      rw [hs.nextToken?_eq, Piece.first?_append ht]
    have hlacks : ∀ u s, ls.head? = some (.token u s) → form u s = none := by
      intro u s hu
      rw [nextToken?_of_head? hu] at hn
      cases hn
      exact hf s
    obtain ⟨b, rest, hb, hq, hs⟩ := hS.derives source ls tail hs
    exact ⟨b, rest, Rule.token?_bind_iff.mpr (Or.inr ⟨hlacks, hb⟩), hq, hs⟩

theorem switch_keyword {table : List (Keyword × Rule α)} {other : Rule α} {k : Keyword}
    (hk : (k, R) ∈ table) (h : Prints R (Piece.keyword k :: ps) P) :
    Prints (Rule.switch table other) (Piece.keyword k :: ps) P where
  readable := h.readable
  derives := by
    intro source ls tail hs
    have hn : nextKeyword? ls = some k := by
      unfold nextKeyword?
      rw [hs.nextToken?_eq]
      exact Keyword.ofText?_text k
    obtain ⟨a, rest, hr, ha, hs⟩ := h.derives source ls tail hs
    exact ⟨a, rest, Or.inl ⟨k, R, hk, hn, hr⟩, ha, hs⟩

theorem switch_other {table : List (Keyword × Rule α)} {t : Token}
    (ht : Piece.first? ps = some t) (hk : ∀ k ∈ table.map Prod.fst, t ≠ .ident k.text)
    (h : Prints R ps P) : Prints (Rule.switch table R) ps P where
  readable := h.readable
  derives := by
    intro source ls tail hs
    have hn : nextToken? ls = some t := by
      rw [hs.nextToken?_eq, Piece.first?_append ht]
    have hother : ∀ k, nextKeyword? ls = some k → k ∉ table.map Prod.fst := by
      intro k hkey hmem
      unfold nextKeyword? at hkey
      rw [hn] at hkey
      split at hkey
      · rename_i word heq
        obtain rfl := Option.some.inj heq
        exact hk k hmem (congrArg Token.ident (Keyword.text_of_ofText? hkey).symm)
      · cases hkey
    obtain ⟨a, rest, hr, ha, hs⟩ := h.derives source ls tail hs
    exact ⟨a, rest, Or.inr ⟨hother, hr⟩, ha, hs⟩

/-! ### Repetitions -/

variable {bare : α → α} {pieces : α → List Piece}

theorem readable_flatMap {xs : List α}
    (h : ∀ x ∈ xs, Prints R (pieces x) fun a => bare a = bare x) :
    ∀ p ∈ xs.flatMap pieces, p.isReadable = true := by
  intro p hp
  obtain ⟨x, hx, hp⟩ := List.mem_flatMap.mp hp
  exact (h x hx).readable p hp

theorem many (xs : List α) (h : ∀ x ∈ xs, Prints R (pieces x) fun a => bare a = bare x) :
    Prints (Rule.many R) (xs.flatMap pieces) fun as => as.map bare = xs.map bare where
  readable := readable_flatMap h
  derives := by
    induction xs with
    | nil => exact fun source ls tail hs => ⟨[], ls, .nil ls, rfl, hs⟩
    | cons x xs ih =>
        obtain ⟨hx, hxs⟩ := List.forall_mem_cons.mp h
        intro source ls tail hs
        rw [List.flatMap_cons, List.append_assoc] at hs
        obtain ⟨a, mid, hr, ha, hs⟩ := hx.derives source ls _ hs
        obtain ⟨as, rest, hrs, has, hs⟩ := ih hxs source mid tail hs
        exact ⟨a :: as, rest, .cons hr hrs, congrArg₂ List.cons ha has, hs⟩

theorem members (xs : List α) (h : ∀ x ∈ xs, Prints R (pieces x) fun a => bare a = bare x) :
    Prints (fun source => Rule.Members R source : Rule (List α)) (xs.flatMap pieces)
      fun as => as.map bare = xs.map bare :=
  (many xs h).mono (fun _ _ _ _ hr => hr.members) fun _ ha => ha

theorem separated (xs : List α) (hne : xs ≠ [])
    (h : ∀ x ∈ xs, Prints R (pieces x) fun a => bare a = bare x) :
    Prints (Rule.separated R) (Piece.separated pieces xs) fun as => as.map bare = xs.map bare := by
  cases xs with
  | nil => exact absurd rfl hne
  | cons x xs =>
      obtain ⟨hx, hxs⟩ := List.forall_mem_cons.mp h
      have hmany : Prints (Rule.many do let _ ← Rule.mark .comma; R)
          (xs.flatMap fun y => Piece.mark .comma :: pieces y)
          fun as => as.map bare = xs.map bare :=
        many xs fun y hy => cons (mark .comma) fun _ _ => hxs y hy
      exact hx.bind fun a ha => last hmany fun as has => congrArg₂ List.cons ha has

theorem body (xs : List α) (h : ∀ x ∈ xs, Prints R (pieces x) fun a => bare a = bare x) :
    Prints (Rule.body R) (Piece.body (xs.flatMap pieces))
      fun result => result.1.map bare = xs.map bare :=
  cons (mark .leftBrace) fun _ _ =>
    (members xs h).bind fun _ has => last (mark .rightBrace) fun _ _ => has

end Prints

end ProtoSchema
