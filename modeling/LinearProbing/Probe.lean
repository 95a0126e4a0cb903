import LinearProbing.Ring
import LinearProbing.Slots

/-!
# Probing

The walk of a hash starts at its home slot and goes round the ring.  `probe`
looks for a key: tombstones and other entries are stepped over, and the first
empty slot shows that the key is absent.  `vacancy` looks for the first empty
slot alone.  A walk that comes back to its start has met no empty slot.
-/

namespace LinearProbing

/-- Where a walk for a key ends: at its entry, or at an empty slot. -/
inductive Landing
  | present (index : Nat) (entry : Entry)
  | absent (index : Nat)
deriving DecidableEq

namespace Slots

def probeFrom (slots : Slots) (key : Bytes) (hash : UInt32) :
    Nat → Nat → Except Fault Landing
  | _, 0 => .error (.probeExhausted slots.size)
  | step, left + 1 =>
      let index :=
        Ring.wrap slots.size (Ring.home slots.size hash + step)
      match slots.get index with
      | .empty => .ok (.absent index)
      | .tombstone => slots.probeFrom key hash (step + 1) left
      | .occupied entry =>
          if entry.hash = hash ∧ entry.key = key then
            .ok (.present index entry)
          else
            slots.probeFrom key hash (step + 1) left

def probe (slots : Slots) (key : Bytes) (hash : UInt32) :
    Except Fault Landing :=
  slots.probeFrom key hash 0 slots.size

def vacancyFrom (slots : Slots) : Nat → Nat → Except Fault Nat
  | _, 0 => .error (.probeExhausted slots.size)
  | index, left + 1 =>
      match slots.get index with
      | .empty => .ok index
      | .occupied _ | .tombstone =>
          slots.vacancyFrom (Ring.after slots.size index) left

def vacancy (slots : Slots) (hash : UInt32) : Except Fault Nat :=
  slots.vacancyFrom (Ring.home slots.size hash) slots.size

/-- Puts an entry into the first empty slot on its walk.  Its key is not
compared with those already there. -/
def settle (slots : Slots) (entry : Entry) : Except Fault Slots :=
  match slots.vacancy entry.hash with
  | .error fault => .error fault
  | .ok index => .ok (slots.put index (.occupied entry))

def settleAll (slots : Slots) (entries : List Entry) : Except Fault Slots :=
  entries.foldlM settle slots

end Slots

end LinearProbing
