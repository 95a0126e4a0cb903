import LinearProbing.Table.Basic
import LinearProbing.Text.Outline

/-!
# Outlines of tables

A table is outlined by the marks of its slots, sixteen to a row, and its
counters.
-/

namespace LinearProbing.Table

def slotMap (table : Table) : String :=
  String.ofList (table.slots.toList.map Slot.mark)

def slotRows (table : Table) : List String :=
  (List.range ((table.capacity + 15) / 16)).map fun row =>
    let cells := table.slots.cells.extract (16 * row) (16 * row + 16)
    String.ofList (cells.toList.map Slot.mark)

def outline (table : Table) : Outline :=
  .record "HashTable"
    [.field "slots" (.list (table.slotRows.map .quoted)),
      .field "count" (.nat table.count),
      .field "tombstones" (.nat table.tombstones),
      .field "capacity" (.nat table.capacity)]

end LinearProbing.Table
