/-!
# Source ranges

A `Span` is a half-open range of byte offsets into one source text.  A `Located` value remembers
the range it was read from.
-/

namespace Idl

/-- A half-open range of byte offsets; it never ends before it starts. -/
structure Span where
  start : Nat
  stop : Nat
  start_le_stop : start ≤ stop := by omega
deriving DecidableEq, Repr

namespace Span

/-- The range between two offsets; a `stop` below `start` is raised to it. -/
def between (start stop : Nat) : Span where
  start := start
  stop := max start stop

def point (offset : Nat) : Span where
  start := offset
  stop := offset

instance : Inhabited Span := ⟨point 0⟩

def length (s : Span) : Nat := s.stop - s.start

def isEmpty (s : Span) : Bool := s.start == s.stop

def union (s t : Span) : Span where
  start := min s.start t.start
  stop := max s.stop t.stop
  start_le_stop := by
    have := s.start_le_stop
    omega

end Span

structure Located (α : Type) where
  value : α
  span : Span
deriving DecidableEq, Repr, Inhabited

def Located.map {α β : Type} (f : α → β) (x : Located α) : Located β := ⟨f x.value, x.span⟩

end Idl
