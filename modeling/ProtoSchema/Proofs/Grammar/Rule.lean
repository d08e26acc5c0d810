/-
Rules: how a grammar is written down.

A rule says which sequences of tokens it derives, and for each of them a value and the
remarks that it gives rise to.  Nothing in it is a procedure.  A sequence may be cut
anywhere, a repetition may stop anywhere, and an alternative may be taken wherever it
derives something.

The language has no reserved words, so at a few places a word decides what follows, and
what it decides against is no longer possible there.  Rules say this with `lacks`, which
looks at the next token, and with `switch`, which looks at the next word.
-/
import ProtoSchema.Grammar.Parser
import ProtoSchema.Text.Blank
import ProtoSchema.Text.Slice

namespace ProtoSchema

/--
A rule for values of type `α`.  In the text `source`, the lexemes in front derive a value
with remarks, and the lexemes behind are what they leave.
-/
def Rule (α : Type) : Type :=
  (source : List Char) → (front : List Lexeme) → α → List Diagnostic → (behind : List Lexeme) → Prop

/-- The token that comes first. -/
def nextToken? : List Lexeme → Option Token
  | .token t _ :: _ => some t
  | _ => none

/-- The keyword that comes first. -/
def nextKeyword? (ls : List Lexeme) : Option Keyword :=
  match nextToken? ls with
  | some (.ident word) => Keyword.ofText? word
  | _ => none

namespace Rule

variable {α β : Type}

/-! ### Sequences and alternatives -/

protected def pure (a : α) : Rule α := fun _ ls b ds rest => b = a ∧ ds = [] ∧ rest = ls

protected def bind (R : Rule α) (S : α → Rule β) : Rule β := fun source ls b ds rest =>
  ∃ a ds₁ mid ds₂, R source ls a ds₁ mid ∧ S a source mid b ds₂ rest ∧ ds = ds₁ ++ ds₂

instance : Monad Rule where
  pure := Rule.pure
  bind := Rule.bind

instance : LawfulMonad Rule :=
  LawfulMonad.mk' _
    (by
      intro α R
      funext source ls a ds rest
      refine propext ⟨?_, fun h => ⟨a, ds, rest, [], h, ⟨rfl, rfl, rfl⟩, (List.append_nil _).symm⟩⟩
      rintro ⟨a', ds₁, mid, ds₂, h, ⟨rfl, rfl, rfl⟩, rfl⟩
      rw [List.append_nil]
      exact h)
    (by
      intro α β a S
      funext source ls b ds rest
      refine propext ⟨?_, fun h => ⟨a, [], ls, ds, ⟨rfl, rfl, rfl⟩, h, rfl⟩⟩
      rintro ⟨a', ds₁, mid, ds₂, ⟨rfl, rfl, rfl⟩, h, rfl⟩
      exact h)
    (by
      intro α β γ R S T
      funext source ls c ds rest
      refine propext ⟨?_, ?_⟩
      · rintro ⟨b, ds₁, mid, ds₂, ⟨a, ds₃, mid', ds₄, hr, hs, rfl⟩, ht, rfl⟩
        exact ⟨a, ds₃, mid', ds₄ ++ ds₂, hr, ⟨b, ds₄, mid, ds₂, hs, ht, rfl⟩,
          List.append_assoc _ _ _⟩
      · rintro ⟨a, ds₁, mid, ds₂, hr, ⟨b, ds₃, mid', ds₄, hs, ht, rfl⟩, rfl⟩
        exact ⟨b, ds₁ ++ ds₃, mid', ds₄, ⟨a, ds₁, mid, ds₃, hr, hs, rfl⟩, ht,
          (List.append_assoc _ _ _).symm⟩)

/-- What one of two rules derives. -/
protected def orElse (R S : Rule α) : Rule α := fun source ls a ds rest =>
  R source ls a ds rest ∨ S source ls a ds rest

instance : OrElse (Rule α) where
  orElse R S := R.orElse (S ())

/-- The rule that derives nothing. -/
def fail : Rule α := fun _ _ _ _ _ => False

/-- A part that may be missing. -/
def optional (R : Rule α) : Rule (Option α) := (some <$> R) <|> pure none

/-! ### Tokens -/

/-- A token of a certain form. -/
def token (form : Token → Span → Option α) : Rule α := fun _ ls a ds rest =>
  ∃ t s, ls = .token t s :: rest ∧ form t s = some a ∧ ds = []

def mark (p : Punctuation) : Rule Span := token fun t s => if t = .mark p then some s else none

def keyword (k : Keyword) : Rule Span :=
  token fun t s => if t = .ident k.text then some s else none

theorem mark_iff {p : Punctuation} {source : List Char} {ls rest : List Lexeme} {s : Span}
    {ds : List Diagnostic} :
    mark p source ls s ds rest ↔ ls = .token (.mark p) s :: rest ∧ ds = [] := by
  constructor
  · rintro ⟨t, s', rfl, hf, rfl⟩
    dsimp only at hf
    split at hf
    · rename_i ht
      cases hf
      exact ⟨by rw [ht], rfl⟩
    · cases hf
  · rintro ⟨rfl, rfl⟩
    exact ⟨_, s, rfl, if_pos rfl, rfl⟩

theorem keyword_iff {k : Keyword} {source : List Char} {ls rest : List Lexeme} {s : Span}
    {ds : List Diagnostic} :
    keyword k source ls s ds rest ↔ ls = .token (.ident k.text) s :: rest ∧ ds = [] := by
  constructor
  · rintro ⟨t, s', rfl, hf, rfl⟩
    dsimp only at hf
    split at hf
    · rename_i ht
      cases hf
      exact ⟨by rw [ht], rfl⟩
    · cases hf
  · rintro ⟨rfl, rfl⟩
    exact ⟨_, s, rfl, if_pos rfl, rfl⟩

theorem nextKeyword?_of_keyword {k : Keyword} {source : List Char} {ls rest : List Lexeme}
    {s : Span} {ds : List Diagnostic} (h : keyword k source ls s ds rest) :
    nextKeyword? ls = some k := by
  obtain ⟨rfl, -⟩ := keyword_iff.mp h
  exact Keyword.ofText?_text k

/-- Nothing, where no token of a certain form comes next. -/
def lacks (form : Token → Span → Option α) : Rule Unit := fun _ ls _ ds rest =>
  (∀ t s, ls.head? = some (.token t s) → form t s = none) ∧ ds = [] ∧ rest = ls

/-- A token of a certain form, which is taken wherever it stands. -/
def token? (form : Token → Span → Option α) : Rule (Option α) :=
  (some <$> token form) <|> (do lacks form; pure none)

/-- A keyword that is taken wherever it stands. -/
def keyword? (k : Keyword) : Rule (Option Span) :=
  token? fun t s => if t = .ident k.text then some s else none

/--
What the next word decides.  With a word of the table it is the rule for that word, and
without one it is the other rule.
-/
def switch (table : List (Keyword × Rule α)) (other : Rule α) : Rule α :=
  fun source ls a ds rest =>
    (∃ k R, (k, R) ∈ table ∧ nextKeyword? ls = some k ∧ R source ls a ds rest) ∨
    ((∀ k, nextKeyword? ls = some k → k ∉ table.map Prod.fst) ∧ other source ls a ds rest)

/-! ### Repetitions -/

/-- Any number of instances of a rule. -/
inductive Many (R : Rule α) (source : List Char) :
    List Lexeme → List α → List Diagnostic → List Lexeme → Prop
  | nil (ls : List Lexeme) : Many R source ls [] [] ls
  | cons {ls mid rest : List Lexeme} {a : α} {as : List α} {ds₁ ds₂ : List Diagnostic}
      (first : R source ls a ds₁ mid) (others : Many R source mid as ds₂ rest) :
      Many R source ls (a :: as) (ds₁ ++ ds₂) rest

def many (R : Rule α) : Rule (List α) := fun source => Many R source

/-- One instance or more, separated by commas. -/
def separated (R : Rule α) : Rule (List α) := do
  let first ← R
  let others ← many do
    let _ ← mark .comma
    R
  pure (first :: others)

/-- Any number of members, and of semicolons between them. -/
inductive Members (R : Rule α) (source : List Char) :
    List Lexeme → List α → List Diagnostic → List Lexeme → Prop
  | nil (ls : List Lexeme) : Members R source ls [] [] ls
  | semicolon {ls rest : List Lexeme} {s : Span} {as : List α} {ds : List Diagnostic}
      (others : Members R source ls as ds rest) :
      Members R source (.token (.mark .semicolon) s :: ls) as ds rest
  | member {ls mid rest : List Lexeme} {a : α} {as : List α} {ds₁ ds₂ : List Diagnostic}
      (first : R source ls a ds₁ mid) (others : Members R source mid as ds₂ rest) :
      Members R source ls (a :: as) (ds₁ ++ ds₂) rest

/-- Members between braces, and the place of the closing brace. -/
def body (R : Rule α) : Rule (List α × Span) := do
  let _ ← mark .leftBrace
  let members ← (fun source => Members R source : Rule (List α))
  let closing ← mark .rightBrace
  pure (members, closing)

/-! ### Remarks and texts -/

/-- A remark on what stands before. -/
def remark (d : Diagnostic) : Rule Unit := fun _ ls _ ds rest => ds = [d] ∧ rest = ls

/-- Tokens among which every brace has its partner. -/
inductive Balanced : List Lexeme → List Lexeme → Prop
  | nil (ls : List Lexeme) : Balanced ls ls
  | plain {t : Token} {s : Span} {ls rest : List Lexeme} (hl : t ≠ .mark .leftBrace)
      (hr : t ≠ .mark .rightBrace) (others : Balanced ls rest) :
      Balanced (.token t s :: ls) rest
  | block {s s' : Span} {ls mid rest : List Lexeme}
      (inner : Balanced ls (.token (.mark .rightBrace) s' :: mid)) (others : Balanced mid rest) :
      Balanced (.token (.mark .leftBrace) s :: ls) rest

/-- The rest of a block in braces, and the place of its closing brace. -/
def blockEnd : Rule Span := do
  (fun _ ls _ ds rest => Balanced ls rest ∧ ds = [] : Rule Unit)
  mark .rightBrace

/-- The text of a part of the source, without white space around it. -/
def trimmedText (span : Span) : Rule String := fun source ls text ds rest =>
  text = String.ofList (Text.trim (Text.slice source span)) ∧ ds = [] ∧ rest = ls

end Rule

end ProtoSchema
