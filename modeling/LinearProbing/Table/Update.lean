import LinearProbing.Table.Growth
import LinearProbing.Table.Lookup

/-!
# Updates

`write` puts a new entry in first and makes room afterwards; when no room can
be had it takes the entry back, so a refused write leaves the table as it
was.  `erase` leaves a tombstone only if the next slot of the ring is in use,
since only then can a walk run through the slot.
-/

namespace LinearProbing

inductive Written
  | added
  | replaced (previous : Option Bytes)
deriving DecidableEq

def Written.isNew : Written → Bool
  | .added => true
  | .replaced _ => false

namespace Table

def write (limit : Nat) (table : Table) (key value : View) :
    Outcome Table Written :=
  match table.pairFault? key value with
  | some fault => .refused table fault
  | none =>
      match table.locate key.bytes with
      | .error fault => .refused table fault
      | .ok (.present index entry) =>
          let updated := { entry with value := value.stored }
          .done
            { table with slots := table.slots.put index (.occupied updated) }
            (.replaced entry.value)
      | .ok (.absent index) =>
          let occupied := table.occupy index (Entry.ofViews key value)
          match occupied.makeRoom limit 0 with
          | .error fault => .refused (occupied.vacate index) fault
          | .ok (grown, rehash) => ⟨.ok .added, grown, rehash⟩

/-- Answers whether the key is new to the table. -/
def insert (limit : Nat) (table : Table) (key value : View) :
    Outcome Table Bool :=
  (table.write limit key value).map Written.isNew

def erase (table : Table) (key : View) : Outcome Table (Option Entry) :=
  match table.keyFault? key with
  | some fault => .refused table fault
  | none =>
      match table.locate key.bytes with
      | .error fault => .refused table fault
      | .ok (.absent _) => .done table none
      | .ok (.present index entry) =>
          let next := Ring.after table.capacity index
          if (table.slots.get next).isEmpty then
            .done (table.vacate index) (some entry)
          else
            .done (table.bury index) (some entry)

end Table

end LinearProbing
