import LinearProbing.Slots
import Mathlib.Data.List.Basic

/-!
# Entries and tallies of a slot array

A write to one slot splits the list of entries at that slot: the entries
before it and those beyond it stay, and only what the slot itself holds is
exchanged (`entries_eq`, `entries_put`).  The slots of each kind are counted
by `tally`; the three kinds together make up the array, and a write moves the
tallies by the old and the new content of its slot (`tally_put`).
-/

namespace LinearProbing

namespace Slot

def isOccupied : Slot → Bool
  | .occupied _ => true
  | .empty | .tombstone => false

def isTombstone : Slot → Bool
  | .tombstone => true
  | .empty | .occupied _ => false

/-- What a slot adds to the list of entries. -/
def content : Slot → List Entry
  | .occupied entry => [entry]
  | .empty | .tombstone => []

theorem content_ne_nil_iff {slot : Slot} :
    slot.content ≠ [] ↔ ∃ entry, slot = .occupied entry := by
  cases slot <;> simp [content]

theorem isEmpty_iff (slot : Slot) : slot.isEmpty = true ↔ slot = .empty := by
  cases slot <;> simp [isEmpty]

theorem entry?_eq_some_iff {slot : Slot} {entry : Entry} :
    slot.entry? = some entry ↔ slot = .occupied entry := by
  unfold entry?
  cases slot <;> simp

end Slot

namespace Slots

variable {slots : Slots} {index : Nat}

def tally (slots : Slots) (kind : Slot → Bool) : Nat :=
  slots.toList.countP kind

/-- The entries in the slots below `index`. -/
def before (slots : Slots) (index : Nat) : List Entry :=
  (slots.toList.take index).filterMap Slot.entry?

/-- The entries in the slots from `index` on. -/
def beyond (slots : Slots) (index : Nat) : List Entry :=
  (slots.toList.drop index).filterMap Slot.entry?

@[simp]
theorem length_toList (slots : Slots) : slots.toList.length = slots.size :=
  Array.length_toList

theorem getElem_toList (hindex : index < slots.toList.length) :
    slots.toList[index] = slots.get index := by
  have hcells : index < slots.cells.size := by
    rwa [length_toList] at hindex
  unfold get
  rw [Array.getD_eq_getD_getElem?, Array.getElem?_eq_getElem hcells]
  exact Array.getElem_toList hcells

theorem get_of_size_le (hindex : slots.size ≤ index) :
    slots.get index = .empty := by
  unfold size at hindex
  unfold get
  rw [Array.getD_eq_getD_getElem?, Array.getElem?_eq_none hindex]
  rfl

theorem lt_size_of_get_ne (hslot : slots.get index ≠ .empty) :
    index < slots.size := by
  by_contra hlt
  exact hslot (get_of_size_le (Nat.le_of_not_gt hlt))

theorem lt_size_of_occupied {entry : Entry}
    (hslot : slots.get index = .occupied entry) : index < slots.size :=
  lt_size_of_get_ne (by simp [hslot])

theorem toList_put (slots : Slots) (index : Nat) (slot : Slot) :
    (slots.put index slot).toList = slots.toList.set index slot :=
  Array.toList_setIfInBounds

theorem toList_blank (size : Nat) :
    (blank size).toList = List.replicate size .empty :=
  Array.toList_replicate

/-! ## Entries -/

theorem mem_entries {entry : Entry} :
    entry ∈ slots.entries ↔
      ∃ index, slots.get index = .occupied entry := by
  unfold entries
  simp only [List.mem_filterMap, Slot.entry?_eq_some_iff, exists_eq_right]
  constructor
  · intro hmem
    obtain ⟨index, hindex, hslot⟩ := List.getElem_of_mem hmem
    exact ⟨index, (getElem_toList hindex).symm.trans hslot⟩
  · rintro ⟨index, hslot⟩
    have hindex : index < slots.toList.length := by
      rw [length_toList]
      exact lt_size_of_occupied hslot
    rw [← hslot, ← getElem_toList hindex]
    exact List.getElem_mem hindex

theorem mem_keys {key : Bytes} :
    key ∈ slots.entries.map Entry.key ↔
      ∃ index entry, slots.get index = .occupied entry ∧
        entry.key = key := by
  rw [List.mem_map]
  constructor
  · rintro ⟨entry, hentry, hkey⟩
    obtain ⟨index, hslot⟩ := mem_entries.mp hentry
    exact ⟨index, entry, hslot, hkey⟩
  · rintro ⟨index, entry, hslot, hkey⟩
    exact ⟨entry, mem_entries.mpr ⟨index, hslot⟩, hkey⟩

theorem before_append_beyond (slots : Slots) (index : Nat) :
    slots.before index ++ slots.beyond index = slots.entries := by
  unfold before beyond entries
  rw [← List.filterMap_append, List.take_append_drop]

@[simp]
theorem before_zero (slots : Slots) : slots.before 0 = [] := by
  simp [before]

theorem beyond_of_size_le (hindex : slots.size ≤ index) :
    slots.beyond index = [] := by
  unfold beyond
  rw [List.drop_eq_nil_of_le (by rwa [length_toList])]
  rfl

theorem beyond_eq (hindex : index < slots.size) :
    slots.beyond index =
      (slots.get index).content ++ slots.beyond (index + 1) := by
  unfold beyond
  rw [List.drop_eq_getElem_cons (by rwa [length_toList]), getElem_toList,
    List.filterMap_cons]
  cases slots.get index <;> rfl

theorem before_succ (hindex : index < slots.size) :
    slots.before (index + 1) =
      slots.before index ++ (slots.get index).content := by
  unfold before
  rw [List.take_succ_eq_append_getElem (by rwa [length_toList]),
    List.filterMap_append, getElem_toList, List.filterMap_cons]
  cases slots.get index <;> rfl

theorem before_put (slots : Slots) (index : Nat) (slot : Slot) :
    (slots.put index slot).before index = slots.before index := by
  unfold before
  rw [toList_put, List.take_set_of_le (Nat.le_refl index)]

theorem beyond_put (slots : Slots) (index : Nat) (slot : Slot) :
    (slots.put index slot).beyond (index + 1) =
      slots.beyond (index + 1) := by
  unfold beyond
  rw [toList_put, List.drop_set_of_lt (Nat.lt_succ_self index)]

theorem entries_eq (hindex : index < slots.size) :
    slots.entries =
      slots.before index ++
        ((slots.get index).content ++ slots.beyond (index + 1)) := by
  rw [← beyond_eq hindex, before_append_beyond]

theorem entries_put (hindex : index < slots.size) (slot : Slot) :
    (slots.put index slot).entries =
      slots.before index ++
        (slot.content ++ slots.beyond (index + 1)) := by
  have hsame : index < (slots.put index slot).size := by
    rwa [size_put]
  rw [entries_eq hsame, before_put, beyond_put, get_put hindex, if_pos rfl]

@[simp]
theorem entries_blank (size : Nat) : (blank size).entries = [] := by
  unfold entries
  rw [toList_blank, List.filterMap_replicate_of_none rfl]

/-! ## Tallies -/

theorem length_entries (slots : Slots) :
    slots.entries.length = slots.tally Slot.isOccupied := by
  unfold entries tally
  rw [List.length_filterMap_eq_countP]
  apply List.countP_congr
  intro slot _
  cases slot <;> rfl

theorem tally_put (hindex : index < slots.size) (slot : Slot)
    (kind : Slot → Bool) :
    (slots.put index slot).tally kind + (kind (slots.get index)).toNat =
      slots.tally kind + (kind slot).toNat := by
  have hlist : index < slots.toList.length := by
    rwa [length_toList]
  have hold := List.boole_getElem_le_countP (p := kind) hlist
  unfold tally
  rw [getElem_toList] at hold
  rw [toList_put, List.countP_set hlist, getElem_toList]
  cases hnew : kind slot <;> cases hprevious : kind (slots.get index) <;>
    simp only [hprevious, if_true, Bool.false_eq_true, if_false,
      Bool.toNat_true, Bool.toNat_false] at hold ⊢ <;> omega

theorem tally_blank (size : Nat) (kind : Slot → Bool) :
    (blank size).tally kind = if kind .empty then size else 0 := by
  unfold tally
  rw [toList_blank, List.countP_replicate]

theorem tally_kinds (slots : Slots) :
    slots.tally Slot.isOccupied + slots.tally Slot.isTombstone +
      slots.tally Slot.isEmpty = slots.size := by
  unfold tally
  rw [← length_toList]
  induction slots.toList with
  | nil => rfl
  | cons slot rest ih =>
      cases slot <;>
        simp [List.countP_cons, Slot.isOccupied, Slot.isTombstone,
          Slot.isEmpty] <;> omega

theorem exists_of_tally_pos {kind : Slot → Bool}
    (hpos : 0 < slots.tally kind) :
    ∃ index < slots.size, kind (slots.get index) = true := by
  obtain ⟨slot, hmem, hkind⟩ := List.countP_pos_iff.mp hpos
  obtain ⟨index, hindex, hslot⟩ := List.getElem_of_mem hmem
  rw [getElem_toList] at hslot
  rw [length_toList] at hindex
  exact ⟨index, hindex, hslot ▸ hkind⟩

theorem exists_empty
    (hroom : slots.tally Slot.isOccupied + slots.tally Slot.isTombstone <
      slots.size) :
    ∃ index < slots.size, slots.get index = .empty := by
  have hkinds := slots.tally_kinds
  have hpos : 0 < slots.tally Slot.isEmpty := by omega
  obtain ⟨index, hindex, hempty⟩ := exists_of_tally_pos hpos
  exact ⟨index, hindex, (Slot.isEmpty_iff _).mp hempty⟩

end Slots

end LinearProbing
