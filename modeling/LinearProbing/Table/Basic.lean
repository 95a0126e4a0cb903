import LinearProbing.Capacity
import LinearProbing.Probe

/-!
# Tables

A table keeps entries in a slot array, the numbers of its entries and
tombstones, and the element sizes that it accepts for keys and values.
`create` makes an empty one with room for a number of entries.

Operations that allocate take a `limit`: a slot array longer than that is
refused.
-/

namespace LinearProbing

structure Table where
  slots : Slots
  count : Nat
  tombstones : Nat
  keyStride : Nat
  valueStride : Nat
deriving DecidableEq

namespace Table

def create (limit room keyStride valueStride : Nat) : Except Fault Table :=
  if keyStride = 0 ∨ valueStride = 0 then
    .error .zeroStride
  else
    match Capacity.fit Capacity.least room with
    | .error fault => .error fault
    | .ok capacity =>
        match Slots.allocate limit capacity with
        | .error fault => .error fault
        | .ok slots => .ok ⟨slots, 0, 0, keyStride, valueStride⟩

def capacity (table : Table) : Nat :=
  table.slots.size

def isEmpty (table : Table) : Bool :=
  table.count == 0

/-- Slots that are not empty, as the counters have it. -/
def used (table : Table) : Nat :=
  table.count + table.tombstones

def loadFactor (table : Table) : Float :=
  table.used.toUInt64.toFloat / table.capacity.toUInt64.toFloat

/-- Puts a new entry into an empty slot. -/
def occupy (table : Table) (index : Nat) (entry : Entry) : Table :=
  { table with
    slots := table.slots.put index (.occupied entry)
    count := table.count + 1 }

/-- Takes the entry out of a slot and leaves the slot empty. -/
def vacate (table : Table) (index : Nat) : Table :=
  { table with
    slots := table.slots.put index .empty
    count := table.count - 1 }

/-- Takes the entry out of a slot and leaves its tombstone. -/
def bury (table : Table) (index : Nat) : Table :=
  { table with
    slots := table.slots.put index .tombstone
    count := table.count - 1
    tombstones := table.tombstones + 1 }

def clear (table : Table) : Table :=
  { table with
    slots := Slots.blank table.capacity
    count := 0
    tombstones := 0 }

@[simp]
theorem capacity_occupy (table : Table) (index : Nat) (entry : Entry) :
    (table.occupy index entry).capacity = table.capacity :=
  Slots.size_put table.slots index (.occupied entry)

@[simp]
theorem capacity_vacate (table : Table) (index : Nat) :
    (table.vacate index).capacity = table.capacity :=
  Slots.size_put table.slots index .empty

@[simp]
theorem capacity_bury (table : Table) (index : Nat) :
    (table.bury index).capacity = table.capacity :=
  Slots.size_put table.slots index .tombstone

@[simp]
theorem capacity_clear (table : Table) :
    table.clear.capacity = table.capacity :=
  Slots.size_blank table.capacity

theorem used_bury {table : Table} (hcount : 0 < table.count) (index : Nat) :
    (table.bury index).used = table.used := by
  simp only [used, bury]
  omega

/-- An entry put into an empty slot can be taken back without a trace. -/
theorem vacate_occupy {table : Table} {index : Nat}
    (hslot : table.slots.get index = .empty) (entry : Entry) :
    (table.occupy index entry).vacate index = table := by
  simp [occupy, vacate, Slots.put_put, Slots.put_self hslot]

end Table

end LinearProbing
