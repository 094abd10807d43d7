/-!
# Lines and columns

A `LineTable` holds the offsets at which lines begin, in ascending order. A
position is found by halving the table, so that reporting many faults in a long
source stays cheap. Offsets past the end belong to the last line.

An offset from outside is a machine word, and so are the line and the column that
are given for it. The column may be one larger than the offset.
-/

namespace MiniJava

/-- A place for a reader: lines and columns count from one, columns in bytes. -/
structure Position where
  line : Nat
  column : Nat
  deriving DecidableEq, Repr

/-- The byte offsets at which the lines of a source begin, in ascending order. -/
structure LineTable where
  starts : Array Nat
  deriving Repr

namespace LineTable

/-- The offsets just after each newline of the text, when the text itself begins
at `offset`. -/
def startsAfter (offset : Nat) : List Char → List Nat
  | [] => []
  | c :: cs =>
    let next := offset + c.utf8Size
    if c = '\n' then next :: startsAfter next cs else startsAfter next cs

/-- The line table of a source: the first line begins at offset zero. -/
def ofSource (source : String) : LineTable :=
  ⟨(0 :: startsAfter 0 source.toList).toArray⟩

/-- How many entries of an ascending table are at most `offset`, knowing that the
entries below `lo` are and those from `hi` on are not. -/
def countUpTo (starts : Array Nat) (offset lo hi : Nat) : Nat :=
  if lo < hi then
    let mid := (lo + hi) / 2
    if starts.getD mid 0 ≤ offset then countUpTo starts offset (mid + 1) hi
    else countUpTo starts offset lo mid
  else lo
  termination_by hi - lo
  decreasing_by all_goals omega

/-- The line and column of a byte offset. -/
def place (table : LineTable) (offset : Nat) : Position :=
  let line := countUpTo table.starts offset 0 table.starts.size
  ⟨line, offset - table.starts.getD (line - 1) 0 + 1⟩

/-- The line and column of any offset that is a machine word, unless the column is
too large for one. -/
def position (table : LineTable) (offset : UInt64) : Option Position :=
  let p := table.place offset.toNat
  if p.column < UInt64.size then some p else none

end LineTable

end MiniJava
