import LinearProbing.Table.Basic

/-!
# Drains

A drain takes the entries out of a table in slot order.  Each one it yields
leaves a tombstone, so a drain that is abandoned leaves a table of the
entries it did not yield.  A drain that is finished empties the table.
-/

namespace LinearProbing

structure Drain where
  table : Table
  index : Nat

namespace Drain

/-- The first entry at `index` or at one of the `left` slots from there. -/
def seek (slots : Slots) : Nat → Nat → Option (Nat × Entry)
  | _, 0 => none
  | index, left + 1 =>
      match slots.get index with
      | .occupied entry => some (index, entry)
      | .empty | .tombstone => seek slots (index + 1) left

def next (drain : Drain) : Option Entry × Drain :=
  let table := drain.table
  match seek table.slots drain.index (table.capacity - drain.index) with
  | none => (none, ⟨table, table.capacity⟩)
  | some (index, entry) =>
      (some entry, ⟨table.bury index, index + 1⟩)

def remaining (drain : Drain) : Nat :=
  drain.table.count

/-- Lower and upper bound on the number of entries still to come. -/
def sizeHint (drain : Drain) : Nat × Nat :=
  (drain.remaining, drain.remaining)

/-- At most `steps` entries, and the drain behind them. -/
def take : Nat → Drain → List Entry × Drain
  | 0, drain => ([], drain)
  | steps + 1, drain =>
      match drain.next with
      | (none, last) => ([], last)
      | (some entry, later) =>
          let (entries, last) := later.take steps
          (entry :: entries, last)

def finish (drain : Drain) : Table :=
  drain.table.clear

def abandon (drain : Drain) : Table :=
  drain.table

end Drain

def Table.drain (table : Table) : Drain :=
  ⟨table, 0⟩

end LinearProbing
