/-!
# Spans

A span is a range of byte offsets into a source text. Code made by an edit has no place in the
source; it carries the dummy span `0..0`, which `Span.merge` ignores, so that a span merged over
several parts covers exactly the parts that were read from the source.
-/

namespace JavaFold

/-- The byte offsets from `start` up to, but not including, `stop`. They stand for 32-bit offsets, so for those
into a text of fewer than 2^32 bytes; in a longer one these would come round again. -/
structure Span where
  start : Nat
  stop : Nat
deriving DecidableEq, Repr, Inhabited

/-- A value together with the span it was read from. -/
structure Spanned (α : Type) where
  value : α
  span : Span
deriving DecidableEq, Repr, Inhabited

namespace Span

/-- The span of code that was made rather than read. -/
def dummy : Span := ⟨0, 0⟩

/-- Whether the span is the one of code that was made rather than read. -/
def isDummy (s : Span) : Bool := s.start == 0 && s.stop == 0

/-- The least span that covers both; a dummy span covers nothing. -/
def merge (a b : Span) : Span :=
  if a.isDummy then b
  else if b.isDummy then a
  else ⟨min a.start b.start, max a.stop b.stop⟩

theorem isDummy_iff {s : Span} : s.isDummy = true ↔ s = dummy := by
  cases s
  simp [isDummy, dummy]

theorem dummy_merge (b : Span) : dummy.merge b = b := rfl

theorem merge_dummy (a : Span) : a.merge dummy = a := by
  unfold merge
  split
  · next h => exact (isDummy_iff.mp h).symm
  · rfl

end Span

namespace Spanned

/-- A value that was made rather than read. -/
def made {α : Type} (value : α) : Spanned α := ⟨value, .dummy⟩

/-- The same place with another value. -/
def map {α β : Type} (f : α → β) (x : Spanned α) : Spanned β := ⟨f x.value, x.span⟩

end Spanned

end JavaFold
