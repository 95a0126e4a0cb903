import LinearProbing.Table.Basic

/-!
# Cursors

A cursor walks over the entries of a table in slot order.  It carries the
number of entries still to come, seeded from the table's count, and stops
when that number is used up.
-/

namespace LinearProbing

structure Cursor where
  rest : List Slot
  remaining : Nat

namespace Cursor

/-- The first entry of a list of slots with the slots behind it. -/
def seek : List Slot → Option (Entry × List Slot)
  | [] => none
  | .occupied entry :: slots => some (entry, slots)
  | .empty :: slots | .tombstone :: slots => seek slots

def next (cursor : Cursor) : Option Entry × Cursor :=
  if cursor.remaining = 0 then
    (none, cursor)
  else
    match seek cursor.rest with
    | none => (none, ⟨[], cursor.remaining⟩)
    | some (entry, rest) => (some entry, ⟨rest, cursor.remaining - 1⟩)

/-- Lower and upper bound on the number of entries still to come. -/
def sizeHint (cursor : Cursor) : Nat × Nat :=
  (cursor.remaining, cursor.remaining)

/-- At most `steps` entries, and the cursor behind them. -/
def take : Nat → Cursor → List Entry × Cursor
  | 0, cursor => ([], cursor)
  | steps + 1, cursor =>
      match cursor.next with
      | (none, last) => ([], last)
      | (some entry, later) =>
          let (entries, last) := later.take steps
          (entry :: entries, last)

def toList (cursor : Cursor) : List Entry :=
  (cursor.take cursor.remaining).1

end Cursor

namespace Table

def cursor (table : Table) : Cursor :=
  ⟨table.slots.toList, table.count⟩

def entries (table : Table) : List Entry :=
  table.cursor.toList

end Table

end LinearProbing
