import LinearProbing.Histogram
import LinearProbing.Table.Cursor
import LinearProbing.Text.FixedPlaces

/-!
# Statistics of a table

How full a table is, how far its entries lie from their home slots, and how
many bytes its slots and its keys and values take.
-/

namespace LinearProbing

namespace Table

/-- How far past its home each entry lies, in slot order. -/
def displacements (table : Table) : List Nat :=
  table.slots.placements.map fun (index, entry) =>
    Ring.displacement table.capacity index entry.hash

def histogram (table : Table) : Histogram :=
  .ofDistances table.displacements

def payload (table : Table) : Nat :=
  table.entries.foldr (fun entry rest => entry.payload + rest) 0

end Table

structure Statistics where
  live : Nat
  tombstones : Nat
  capacity : Nat
  loadFactor : Float
  farthest : Nat
  meanDistance : Float
  slotBytes : Nat
  payloadBytes : Nat

namespace Statistics

def bytesPerSlot : Nat :=
  48

def ofTable (table : Table) : Statistics :=
  let histogram := table.histogram
  { live := table.count
    tombstones := table.tombstones
    capacity := table.capacity
    loadFactor := table.loadFactor
    farthest := histogram.farthest
    meanDistance := histogram.mean
    slotBytes := table.capacity * bytesPerSlot
    payloadBytes := table.payload }

def percent (fraction : Float) : String :=
  FixedPlaces.decimal 2 (fraction * 100.0) ++ "%"

def lines (statistics : Statistics) : List String :=
  ["=== Hash Table Debug Statistics ===",
    s!"Population: {statistics.live} live + " ++
      s!"{statistics.tombstones} tombstones / " ++
      s!"{statistics.capacity} slots (" ++
      percent statistics.loadFactor ++ " load factor)",
    s!"Probe distance: max {statistics.farthest}, mean " ++
      FixedPlaces.decimal 3 statistics.meanDistance,
    s!"Memory: {statistics.slotBytes} slot bytes + " ++
      s!"{statistics.payloadBytes} payload bytes"]

end Statistics

end LinearProbing
