import LinearProbing.Fault

/-!
# Capacities

A table has at least eight slots and uses at most three quarters of them.
`fit` doubles a capacity until the slots in use are within that load; a
capacity that a machine word cannot hold is a fault.
-/

namespace LinearProbing.Capacity

def least : Nat :=
  8

def Admits (capacity used : Nat) : Prop :=
  4 * used ≤ 3 * capacity

instance (capacity used : Nat) : Decidable (Admits capacity used) :=
  inferInstanceAs (Decidable (4 * used ≤ 3 * capacity))

def fitWithin : Nat → Nat → Nat → Except Fault Nat
  | 0, _, _ => .error .capacityOverflow
  | tries + 1, capacity, used =>
      if Admits capacity used then
        .ok capacity
      else if 2 * capacity < UInt64.size then
        fitWithin tries (2 * capacity) used
      else
        .error .capacityOverflow

/-- A positive capacity is one of at most sixty-four that doubling reaches
within a machine word, so it is not the number of tries that ends the
search. -/
def fit (capacity used : Nat) : Except Fault Nat :=
  fitWithin 64 capacity used

end LinearProbing.Capacity
