import LinearProbing.Entry

/-!
# The slot array

Slots are read and written by index.  Reading outside the array gives an
empty slot and writing there changes nothing, so both are total.
-/

namespace LinearProbing

structure Slots where
  cells : Array Slot
deriving DecidableEq

namespace Slots

def size (slots : Slots) : Nat :=
  slots.cells.size

def get (slots : Slots) (index : Nat) : Slot :=
  slots.cells.getD index .empty

def put (slots : Slots) (index : Nat) (slot : Slot) : Slots :=
  ⟨slots.cells.setIfInBounds index slot⟩

def blank (size : Nat) : Slots :=
  ⟨Array.replicate size .empty⟩

/-- A blank array, unless it takes more than `limit` slots. -/
def allocate (limit size : Nat) : Except Fault Slots :=
  if limit < size then .error (.allocation size) else .ok (blank size)

def toList (slots : Slots) : List Slot :=
  slots.cells.toList

/-- The entries, in the order of their slots. -/
def entries (slots : Slots) : List Entry :=
  slots.toList.filterMap Slot.entry?

def placements (slots : Slots) : List (Nat × Entry) :=
  slots.toList.zipIdx.filterMap fun (slot, index) =>
    slot.entry?.map fun entry => (index, entry)

@[simp]
theorem size_put (slots : Slots) (index : Nat) (slot : Slot) :
    (slots.put index slot).size = slots.size := by
  simp [put, size]

@[simp]
theorem size_blank (n : Nat) : (blank n).size = n := by
  simp [blank, size]

@[simp]
theorem get_blank (n index : Nat) : (blank n).get index = .empty := by
  simp [blank, get, Array.getD]

theorem get_put {slots : Slots} {index : Nat} (hindex : index < slots.size)
    (slot : Slot) (other : Nat) :
    (slots.put index slot).get other =
      if other = index then slot else slots.get other := by
  unfold size at hindex
  unfold put get
  simp only [Array.getD_eq_getD_getElem?,
    Array.getElem?_setIfInBounds]
  by_cases heq : other = index
  · subst heq
    simp [hindex]
  · simp [heq, Ne.symm heq]

theorem put_self {slots : Slots} {index : Nat} {slot : Slot}
    (hslot : slots.get index = slot) :
    slots.put index slot = slots := by
  unfold get at hslot
  unfold put
  rw [Array.getD_eq_getD_getElem?] at hslot
  congr 1
  apply Array.ext_getElem?
  intro i
  rw [Array.getElem?_setIfInBounds]
  by_cases heq : index = i
  · subst heq
    by_cases hindex : index < slots.cells.size
    · simp [hindex] at hslot ⊢
      exact hslot.symm
    · simp [hindex]
  · simp [heq]

theorem put_put (slots : Slots) (index : Nat) (first second : Slot) :
    (slots.put index first).put index second = slots.put index second := by
  simp [put]

end Slots

end LinearProbing
