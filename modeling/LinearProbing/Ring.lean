/-!
# Cyclic positions

Slots are counted round a ring of `capacity` places.  The capacity is a power
of two, so a mask of its low bits takes the remainder (`Ring.wrap_eq_mod`).
-/

namespace LinearProbing.Ring

def wrap (capacity position : Nat) : Nat :=
  position &&& (capacity - 1)

def home (capacity : Nat) (hash : UInt32) : Nat :=
  wrap capacity hash.toNat

def after (capacity index : Nat) : Nat :=
  wrap capacity (index + 1)

/-- How far `index` lies past the home of `hash`.  The difference is taken
modulo the size of a machine word, of which every capacity is a divisor. -/
def displacement (capacity index : Nat) (hash : UInt32) : Nat :=
  wrap capacity (index + (UInt64.size - hash.toNat))

end LinearProbing.Ring
