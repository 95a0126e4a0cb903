import LinearProbing.Table.Basic

/-!
# Looking up

A key must hold a byte and have the table's key stride; a value must have the
table's value stride even when it is empty.  Lookups leave the table alone.
-/

namespace LinearProbing.Table

def strideFault? (expected : Nat) (view : View) : Option Fault :=
  if view.stride = expected then
    none
  else
    some (.strideMismatch expected view.stride)

def keyFault? (table : Table) (key : View) : Option Fault :=
  if key.isEmpty then some .emptyKey else strideFault? table.keyStride key

/-- Why the table does not accept a key with a value.  The key is judged
first. -/
def pairFault? (table : Table) (key value : View) : Option Fault :=
  (table.keyFault? key).or (strideFault? table.valueStride value)

def locate (table : Table) (key : Bytes) : Except Fault Landing :=
  table.slots.probe key (fnv1a key)

def entry? (table : Table) (key : View) : Except Fault (Option Entry) :=
  match table.keyFault? key with
  | some fault => .error fault
  | none =>
      match table.locate key.bytes with
      | .error fault => .error fault
      | .ok (.present _ entry) => .ok (some entry)
      | .ok (.absent _) => .ok none

/-- The stored value as a view of the table's value stride. -/
def valueView (table : Table) (entry : Entry) : View :=
  ⟨entry.valueBytes, table.valueStride⟩

def get (table : Table) (key : View) : Except Fault (Option View) :=
  (table.entry? key).map (Option.map table.valueView)

/-- A key that the table does not accept is not in it. -/
def contains (table : Table) (key : View) : Bool :=
  match table.get key with
  | .ok (some _) => true
  | .ok none | .error _ => false

end LinearProbing.Table
