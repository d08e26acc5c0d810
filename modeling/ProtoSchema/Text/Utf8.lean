/-
UTF-8: characters to bytes, and bytes back to characters.

Decoding runs a small automaton over the bytes.  Its output is a list in which a
well-formed sequence appears as its character and every maximal ill-formed piece
appears once, as `none`.  Strict decoding refuses a list that holds a `none`; lenient
decoding shows a replacement character in its place.  Both therefore agree on
well-formed input by construction.
-/

namespace ProtoSchema.Utf8

/-- The number of bytes that a text takes. -/
def size : List Char → Nat
  | [] => 0
  | c :: cs => c.utf8Size + size cs

@[simp] theorem size_nil : size [] = 0 := rfl

@[simp] theorem size_cons (c : Char) (cs : List Char) : size (c :: cs) = c.utf8Size + size cs :=
  rfl

theorem size_append (as bs : List Char) : size (as ++ bs) = size as + size bs := by
  induction as with
  | nil => simp
  | cons a as ih => simp [ih, Nat.add_assoc]

/-- The bytes of a text. -/
def encode (cs : List Char) : List UInt8 := cs.flatMap String.utf8EncodeChar

@[simp] theorem encode_nil : encode [] = [] := rfl

@[simp] theorem encode_cons (c : Char) (cs : List Char) :
    encode (c :: cs) = String.utf8EncodeChar c ++ encode cs := rfl

/-! ### The decoding automaton

Between characters the automaton is `ready`.  Within a character it knows how many
bytes are still owed, which values the next one may take, and the bits read so far.
The bounds on the next byte rule out overlong forms, surrogates and values past the
last code point; after the second byte they are those of any continuation byte.
-/

/-- Where the automaton stands between two bytes. -/
inductive State where
  /-- Between characters. -/
  | ready
  /-- `owed + 1` bytes are missing, the next one from `low` to `high`. -/
  | within (owed : Nat) (low high : UInt8) (bits : Nat)
deriving DecidableEq, Repr

/-- The first byte of a character, or of an ill-formed piece. -/
def lead (b : UInt8) : List (Option Char) × State :=
  let n := b.toNat
  if n < 0x80 then ([some (Char.ofNat n)], .ready)
  else if n < 0xC2 then ([none], .ready)
  else if n < 0xE0 then ([], .within 0 0x80 0xBF (n - 0xC0))
  else if n = 0xE0 then ([], .within 1 0xA0 0xBF 0)
  else if n = 0xED then ([], .within 1 0x80 0x9F 0xD)
  else if n < 0xF0 then ([], .within 1 0x80 0xBF (n - 0xE0))
  else if n = 0xF0 then ([], .within 2 0x90 0xBF 0)
  else if n < 0xF4 then ([], .within 2 0x80 0xBF (n - 0xF0))
  else if n = 0xF4 then ([], .within 2 0x80 0x8F 4)
  else ([none], .ready)

/-- One byte.  A byte that cannot continue the character begins anew after it. -/
def step : State → UInt8 → List (Option Char) × State
  | .ready, b => lead b
  | .within owed low high bits, b =>
    if low ≤ b ∧ b ≤ high then
      let bits := bits * 64 + (b.toNat - 0x80)
      match owed with
      | 0 => ([some (Char.ofNat bits)], .ready)
      | owed + 1 => ([], .within owed 0x80 0xBF bits)
    else
      let (out, state) := lead b
      (none :: out, state)

/-- The pieces of a byte string, from a state of the automaton. -/
def piecesFrom : State → List UInt8 → List (Option Char)
  | .ready, [] => []
  | .within .., [] => [none]
  | s, b :: bs =>
    let (out, s) := step s b
    out ++ piecesFrom s bs

/-- Well-formed characters as themselves, each maximal ill-formed piece as `none`. -/
def pieces (bytes : List UInt8) : List (Option Char) := piecesFrom .ready bytes

/-- The text of a byte string, if all of it is well formed. -/
def decode? (bytes : List UInt8) : Option (List Char) := (pieces bytes).mapM id

/-- The text of a byte string, with U+FFFD for each maximal ill-formed piece. -/
def decodeLossy (bytes : List UInt8) : List Char := (pieces bytes).map (·.getD '\uFFFD')

end ProtoSchema.Utf8
