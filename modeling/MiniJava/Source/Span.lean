/-!
# Places in the source text

A `Span` is a range of byte offsets, and a `Located` value remembers the range
it was read from. Names, written types and faults are all `Located`, so that a
report can always say where.
-/

namespace MiniJava

/-- The range of byte offsets from `start` up to, but not including, `stop`. -/
structure Span where
  start : Nat
  stop : Nat
  deriving DecidableEq, Repr, Inhabited

namespace Span

/-- The least range that holds both ranges. -/
def join (a b : Span) : Span :=
  ⟨min a.start b.start, max a.stop b.stop⟩

/-- The range given to what no source text declares. -/
def builtin : Span := ⟨0, 0⟩

end Span

/-- A value together with the range of the source text it stands for. -/
structure Located (α : Type) where
  value : α
  span : Span
  deriving DecidableEq, Repr, Inhabited

/-- A name as it is written in the source. -/
abbrev Ident := Located String

end MiniJava
