/-
Braces that have no partner.

A closing brace belongs to the innermost brace that is open, and one that finds nothing
open is a stray.  So the braces of a source that stay unmatched are known after one pass
over its lexemes with a stack of the open ones.

What a parser takes is always a stretch of lexemes, and all that matters of a stretch is
how it changes the stack.  `Leads xs seg ys` says that it turns a stack that ends in
`xs` into one that ends in `ys`, whatever lies below and whatever follows.
-/
import ProtoSchema.Token.Scan

namespace ProtoSchema

/-- The braces without a partner: those left open, the innermost first, and the strays. -/
structure Unmatched where
  opened : List Span
  stray : List Span
deriving DecidableEq, Repr

/-- A stray in front of the braces that a later part leaves unmatched. -/
def Unmatched.addStray (s : Span) (u : Unmatched) : Unmatched := { u with stray := s :: u.stray }

/-- The braces that stay unmatched in lexemes behind which some braces are open already. -/
def unmatched (opened : List Span) : List Lexeme → Unmatched
  | [] => ⟨opened, []⟩
  | l :: ls =>
    match l with
    | .token (.mark .leftBrace) s => unmatched (s :: opened) ls
    | .token (.mark .rightBrace) s =>
      match opened with
      | [] => (unmatched [] ls).addStray s
      | _ :: opened => unmatched opened ls
    | _ => unmatched opened ls

/-- Whether a lexeme is a brace. -/
def Lexeme.isBrace : Lexeme → Bool
  | .token (.mark .leftBrace) _ | .token (.mark .rightBrace) _ => true
  | _ => false

@[simp] theorem unmatched_nil (opened : List Span) : unmatched opened [] = ⟨opened, []⟩ := rfl

theorem unmatched_plain {l : Lexeme} (h : l.isBrace = false) (opened : List Span)
    (ls : List Lexeme) : unmatched opened (l :: ls) = unmatched opened ls := by
  rw [unmatched]
  · rintro s rfl
    simp [Lexeme.isBrace] at h
  · rintro s rfl
    simp [Lexeme.isBrace] at h

theorem isBrace_token {t : Token} (hl : t ≠ .mark .leftBrace) (hr : t ≠ .mark .rightBrace)
    (s : Span) : (Lexeme.token t s).isBrace = false := by
  unfold Lexeme.isBrace
  split
  · rename_i heq
    cases heq
    exact absurd rfl hl
  · rename_i heq
    cases heq
    exact absurd rfl hr
  · rfl

/-! ### What a stretch of lexemes does to the stack -/

/-- A stretch turns a stack that ends in `xs` into one that ends in `ys`. -/
def Leads (xs : List Span) (seg : List Lexeme) (ys : List Span) : Prop :=
  ∀ (below : List Span) (ls : List Lexeme),
    unmatched (xs ++ below) (seg ++ ls) = unmatched (ys ++ below) ls

namespace Leads

variable {xs ys zs : List Span} {seg tail : List Lexeme}

theorem nil (xs : List Span) : Leads xs [] xs := fun _ _ => rfl

theorem append (h : Leads xs seg ys) (ht : Leads ys tail zs) : Leads xs (seg ++ tail) zs := by
  intro below ls
  rw [List.append_assoc, h, ht]

theorem plain {l : Lexeme} (h : l.isBrace = false) (xs : List Span) : Leads xs [l] xs :=
  fun _ ls => unmatched_plain h _ ls

theorem opening (s : Span) (xs : List Span) :
    Leads xs [.token (.mark .leftBrace) s] (s :: xs) := fun _ _ => rfl

theorem closing (x s : Span) (xs : List Span) :
    Leads (x :: xs) [.token (.mark .rightBrace) s] xs := fun _ _ => rfl

/-- What lies deeper in the stack does not matter. -/
theorem frame (h : Leads xs seg ys) (zs : List Span) : Leads (xs ++ zs) seg (ys ++ zs) := by
  intro below ls
  rw [List.append_assoc, List.append_assoc, h]

theorem eq_of_nil (h : Leads xs [] ys) : xs = ys := by
  have := h [] []
  simpa using this

end Leads

end ProtoSchema
