import LinearProbing.Fnv
import LinearProbing.Text.Hex
import LinearProbing.View

/-!
# Entries and slots

An entry is a stored key with its value and the hash of the key.  A value of
no bytes is stored as no value at all.  A slot was never used, holds an
entry, or is the tombstone of one.
-/

namespace LinearProbing

structure Entry where
  key : Bytes
  value : Option Bytes
  hash : UInt32
deriving DecidableEq

/-- What is kept of a value: nothing of an empty one. -/
def View.stored (view : View) : Option Bytes :=
  if view.isEmpty then none else some view.bytes

namespace Entry

def ofViews (key value : View) : Entry :=
  ⟨key.bytes, value.stored, fnv1a key.bytes⟩

def valueBytes (entry : Entry) : Bytes :=
  entry.value.getD []

def payload (entry : Entry) : Nat :=
  entry.key.length + entry.valueBytes.length

def outline (entry : Entry) : Outline :=
  .record "Entry"
    [.field "key" (.bytes entry.key),
      .field "value" (.option (entry.value.map .bytes)),
      .field "hash" (.atom (Hex.literal 8 entry.hash.toNat))]

end Entry

inductive Slot
  | empty
  | occupied (entry : Entry)
  | tombstone
deriving DecidableEq

namespace Slot

def entry? : Slot → Option Entry
  | .occupied entry => some entry
  | .empty | .tombstone => none

def isEmpty : Slot → Bool
  | .empty => true
  | .occupied _ | .tombstone => false

def mark : Slot → Char
  | .empty => '.'
  | .occupied _ => 'o'
  | .tombstone => 'x'

end Slot

@[simp]
theorem View.stored_getD (view : View) : view.stored.getD [] = view.bytes := by
  unfold View.stored View.isEmpty
  cases view.bytes <;> simp

end LinearProbing
