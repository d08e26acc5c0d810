/-
Parts of a text.

A slice is named by byte offsets, as spans are, and taken from a list of characters.
Segments are what stands between the occurrences of a separator.
-/
import ProtoSchema.Span
import ProtoSchema.Text.Utf8

namespace ProtoSchema.Text

/-- A text without the characters that its first `n` bytes belong to. -/
def dropBytes : Nat → List Char → List Char
  | 0, cs => cs
  | _ + 1, [] => []
  | n + 1, c :: cs => dropBytes (n + 1 - c.utf8Size) cs

/-- The characters that start within the first `n` bytes of a text. -/
def takeBytes : Nat → List Char → List Char
  | 0, _ => []
  | _ + 1, [] => []
  | n + 1, c :: cs => c :: takeBytes (n + 1 - c.utf8Size) cs

/-- The part of a text that a span covers. -/
def slice (source : List Char) (span : Span) : List Char :=
  takeBytes (span.stop - span.start) (dropBytes span.start source)

/-- Dropping the bytes of a text that stands in front leaves what stands behind it. -/
theorem dropBytes_append (as bs : List Char) : dropBytes (Utf8.size as) (as ++ bs) = bs := by
  induction as with
  | nil => simp [dropBytes]
  | cons a as ih =>
    have h := a.utf8Size_pos
    obtain ⟨n, hn⟩ : ∃ n, a.utf8Size + Utf8.size as = n + 1 := ⟨_, (Nat.succ_pred (by omega)).symm⟩
    rw [Utf8.size_cons, hn, List.cons_append, dropBytes, ← hn, Nat.add_sub_cancel_left, ih]

theorem takeBytes_append (as bs : List Char) : takeBytes (Utf8.size as) (as ++ bs) = as := by
  induction as with
  | nil => simp [takeBytes]
  | cons a as ih =>
    have h := a.utf8Size_pos
    obtain ⟨n, hn⟩ : ∃ n, a.utf8Size + Utf8.size as = n + 1 := ⟨_, (Nat.succ_pred (by omega)).symm⟩
    rw [Utf8.size_cons, hn, List.cons_append, takeBytes, ← hn, Nat.add_sub_cancel_left, ih]

/-- The span of a text within a larger one covers exactly that text. -/
theorem slice_append (as bs cs : List Char) :
    slice (as ++ (bs ++ cs)) ⟨Utf8.size as, Utf8.size as + Utf8.size bs⟩ = bs := by
  simp [slice, dropBytes_append, takeBytes_append]

/-- What stands between the separators of a text; never empty. -/
def segments (separator : Char) : List Char → List (List Char)
  | [] => [[]]
  | c :: cs =>
    if c = separator then [] :: segments separator cs
    else
      match segments separator cs with
      | [] => [[c]]
      | s :: ss => (c :: s) :: ss

theorem segments_ne_nil (separator : Char) (cs : List Char) : segments separator cs ≠ [] := by
  cases cs with
  | nil => simp [segments]
  | cons c cs =>
    simp only [segments]
    split
    · simp
    · split <;> simp

end ProtoSchema.Text
