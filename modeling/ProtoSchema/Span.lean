/-
Where something stands in a source text.

Every token, every node of a syntax tree and every diagnostic says where it stands
by a half-open interval of byte offsets into the UTF-8 source.  Offsets count bytes
and not characters, because that is what editors and other tools exchange.
-/

namespace ProtoSchema

/-- The bytes from offset `start` up to, but not including, offset `stop`. -/
structure Span where
  start : Nat
  stop : Nat
deriving DecidableEq, Repr, Inhabited

namespace Span

/-- The span from the start of `a` to the end of `b`. -/
def through (a b : Span) : Span := ⟨a.start, b.stop⟩

@[simp] theorem through_start (a b : Span) : (a.through b).start = a.start := rfl

@[simp] theorem through_stop (a b : Span) : (a.through b).stop = b.stop := rfl

/-- The empty span at an offset. -/
def point (offset : Nat) : Span := ⟨offset, offset⟩

end Span

end ProtoSchema
