import LinearProbing.Outcome
import LinearProbing.Table.Basic

/-!
# Growth

A table grows by moving all its entries into a larger blank slot array, in
slot order, and leaving its tombstones behind.
-/

namespace LinearProbing.Table

def moveInto (table : Table) (fresh : Slots) :
    Except Fault (Table × Rehash) :=
  let entries := table.slots.entries
  match fresh.settleAll entries with
  | .error fault => .error fault
  | .ok slots =>
      .ok
        ({ table with
            slots := slots
            count := entries.length
            tombstones := 0 },
          { before := table.capacity
            after := slots.size
            moved := entries.length
            reclaimed := table.tombstones })

/-- Grows the table, if that is needed for `extra` more slots in use. -/
def makeRoom (limit extra : Nat) (table : Table) :
    Except Fault (Table × Option Rehash) :=
  match Capacity.fit table.capacity (table.used + extra) with
  | .error fault => .error fault
  | .ok capacity =>
      if capacity = table.capacity then
        .ok (table, none)
      else
        match Slots.allocate limit capacity with
        | .error fault => .error fault
        | .ok fresh =>
            match table.moveInto fresh with
            | .error fault => .error fault
            | .ok (grown, rehash) => .ok (grown, some rehash)

def reserve (limit : Nat) (table : Table) (extra : Nat) :
    Outcome Table Unit :=
  match table.makeRoom limit extra with
  | .error fault => .refused table fault
  | .ok (grown, rehash) => ⟨.ok (), grown, rehash⟩

end LinearProbing.Table
