import LinearProbing.Proofs.Placement
import LinearProbing.Table.Lookup

/-!
# Well-formed tables

A table is consistent if its array is sound, its counters count what is
there, and every entry has the hash of its key and bytes that its strides
divide.  It is well formed if, besides, at most three quarters of its slots
are in use.  A write runs through tables that are consistent but for a moment
overfull, so the two are kept apart.

In a well-formed table some slot is empty, hence every lookup ends, at the
entry of the key or at the first empty slot of its walk (`locate_cases`).
-/

namespace LinearProbing

structure Entry.Fits (keyStride valueStride : Nat) (entry : Entry) :
    Prop where
  hash_eq : entry.hash = fnv1a entry.key
  key_ne_nil : entry.key ≠ []
  key_dvd : keyStride ∣ entry.key.length
  value_fits :
    ∀ bytes, entry.value = some bytes →
      bytes ≠ [] ∧ valueStride ∣ bytes.length

theorem View.stored_eq_some_iff {view : View} {bytes : Bytes} :
    view.stored = some bytes ↔ bytes ≠ [] ∧ view.bytes = bytes := by
  unfold stored isEmpty
  cases view.bytes with
  | nil => simp
  | cons head tail =>
      simp only [List.isEmpty_cons, Bool.false_eq_true, if_false,
        Option.some.injEq, ne_eq]
      constructor
      · rintro rfl
        simp
      · exact And.right

namespace Table

variable {table : Table} {index step : Nat} {entry : Entry} {key : Bytes}

structure Consistent (table : Table) : Prop where
  sound : table.slots.Sound
  least_le : Capacity.least ≤ table.capacity
  lt_wordSize : table.capacity < UInt64.size
  count_eq : table.count = table.slots.tally Slot.isOccupied
  tombstones_eq : table.tombstones = table.slots.tally Slot.isTombstone
  fits :
    ∀ entry ∈ table.slots.entries,
      entry.Fits table.keyStride table.valueStride
  keyStride_pos : 0 < table.keyStride
  valueStride_pos : 0 < table.valueStride

structure WellFormed (table : Table) : Prop extends Consistent table where
  load : Capacity.Admits table.capacity table.used

theorem Consistent.length_entries (hgood : table.Consistent) :
    table.slots.entries.length = table.count := by
  rw [hgood.count_eq, Slots.length_entries]

theorem Consistent.exists_empty (hgood : table.Consistent)
    (hroom : table.used < table.capacity) :
    ∃ index < table.slots.size, table.slots.get index = .empty := by
  apply Slots.exists_empty
  rw [← hgood.count_eq, ← hgood.tombstones_eq]
  exact hroom

theorem Consistent.used_le (hgood : table.Consistent) :
    table.used ≤ table.capacity := by
  have hkinds := table.slots.tally_kinds
  rw [← hgood.count_eq, ← hgood.tombstones_eq] at hkinds
  unfold used capacity
  omega

theorem WellFormed.used_lt (hgood : table.WellFormed) :
    table.used < table.capacity := by
  have hload : 4 * table.used ≤ 3 * table.capacity := hgood.load
  have hleast : 8 ≤ table.capacity := hgood.least_le
  omega

theorem Consistent.locate_occupied (hgood : table.Consistent)
    (hslot : table.slots.get index = .occupied entry) :
    table.locate entry.key = .ok (.present index entry) := by
  have hfits := hgood.fits entry (Slots.mem_entries.mpr ⟨index, hslot⟩)
  rw [locate, ← hfits.hash_eq]
  exact hgood.sound.probe_occupied hslot

/-- Where the search for a key ends. -/
theorem WellFormed.locate_cases (hgood : table.WellFormed) (key : Bytes) :
    (∃ index entry, table.slots.get index = .occupied entry ∧
        entry.key = key ∧ table.locate key = .ok (.present index entry)) ∨
      (key ∉ table.slots.entries.map Entry.key ∧
        ∃ step, table.slots.FirstEmpty (fnv1a key) step ∧
          table.locate key =
            .ok (.absent (Ring.walk table.capacity (fnv1a key) step))) := by
  apply hgood.sound.probe_cases (hgood.exists_empty hgood.used_lt)
  rintro entry hentry rfl
  exact (hgood.fits entry hentry).hash_eq

/-! ## Writes to one slot -/

theorem mem_entries_of_put {slots : Slots} (hindex : index < slots.size)
    {slot : Slot} {found : Entry}
    (hfound : found ∈ (slots.put index slot).entries) :
    slot = .occupied found ∨ found ∈ slots.entries := by
  rcases Slots.mem_entries.mp hfound with ⟨position, hslot⟩
  rw [Slots.get_put hindex] at hslot
  by_cases heq : position = index
  · exact Or.inl (by rwa [if_pos heq] at hslot)
  · rw [if_neg heq] at hslot
    exact Or.inr (Slots.mem_entries.mpr ⟨position, hslot⟩)

/-- A sound write keeps a table consistent if the counters follow it. -/
theorem Consistent.put (hgood : table.Consistent)
    (hindex : index < table.slots.size) {slot : Slot} {count tombstones : Nat}
    (hsound : (table.slots.put index slot).Sound)
    (hfits : ∀ found, slot = .occupied found →
      found.Fits table.keyStride table.valueStride)
    (hcount : count + (table.slots.get index).isOccupied.toNat =
      table.count + slot.isOccupied.toNat)
    (htombstones : tombstones + (table.slots.get index).isTombstone.toNat =
      table.tombstones + slot.isTombstone.toNat) :
    Consistent ⟨table.slots.put index slot, count, tombstones,
      table.keyStride, table.valueStride⟩ where
  sound := hsound
  least_le := by
    simpa [capacity] using hgood.least_le
  lt_wordSize := by
    simpa [capacity] using hgood.lt_wordSize
  count_eq := by
    have htally := Slots.tally_put hindex slot Slot.isOccupied
    rw [← hgood.count_eq, ← hcount] at htally
    exact (Nat.add_right_cancel htally).symm
  tombstones_eq := by
    have htally := Slots.tally_put hindex slot Slot.isTombstone
    rw [← hgood.tombstones_eq, ← htombstones] at htally
    exact (Nat.add_right_cancel htally).symm
  fits := by
    intro found hfound
    rcases mem_entries_of_put hindex hfound with hnew | hold
    · exact hfits found hnew
    · exact hgood.fits found hold
  keyStride_pos := hgood.keyStride_pos
  valueStride_pos := hgood.valueStride_pos

theorem Consistent.occupy (hgood : table.Consistent)
    (hfirst : table.slots.FirstEmpty entry.hash step)
    (habsent : entry.key ∉ table.slots.entries.map Entry.key)
    (hfits : entry.Fits table.keyStride table.valueStride) :
    (table.occupy (Ring.walk table.capacity entry.hash step)
      entry).Consistent := by
  have hempty : table.slots.get
      (Ring.walk table.slots.size entry.hash step) = .empty := hfirst.empty
  apply hgood.put (Ring.walk_lt hgood.sound.binary entry.hash step)
    (hgood.sound.put_first hfirst habsent)
  · intro found heq
    rw [Slot.occupied.injEq] at heq
    rwa [← heq]
  · simp [hempty, Slot.isOccupied]
  · simp [hempty, Slot.isTombstone]

theorem Consistent.count_pos (hgood : table.Consistent)
    (hslot : table.slots.get index = .occupied entry) : 0 < table.count := by
  rw [← hgood.length_entries]
  exact List.length_pos_of_mem (Slots.mem_entries.mpr ⟨index, hslot⟩)

theorem WellFormed.bury (hgood : table.WellFormed)
    (hslot : table.slots.get index = .occupied entry) :
    (table.bury index).WellFormed where
  toConsistent := by
    have hindex := Slots.lt_size_of_occupied hslot
    apply hgood.put hindex (hgood.sound.put_tombstone hindex)
    · simp
    · simpa [hslot, Slot.isOccupied] using
        Nat.sub_add_cancel (hgood.count_pos hslot)
    · simp [hslot, Slot.isTombstone]
  load := by
    rw [capacity_bury, used_bury (hgood.count_pos hslot)]
    exact hgood.load

theorem WellFormed.vacate (hgood : table.WellFormed)
    (hslot : table.slots.get index = .occupied entry)
    (hnext : table.slots.get (Ring.after table.capacity index) = .empty) :
    (table.vacate index).WellFormed where
  toConsistent := by
    have hindex := Slots.lt_size_of_occupied hslot
    apply hgood.put hindex (hgood.sound.put_empty hindex hnext)
    · simp
    · simpa [hslot, Slot.isOccupied] using
        Nat.sub_add_cancel (hgood.count_pos hslot)
    · simp [hslot, Slot.isTombstone]
  load := by
    have hload : 4 * table.used ≤ 3 * table.capacity := hgood.load
    rw [capacity_vacate]
    unfold Capacity.Admits used Table.vacate at *
    dsimp only
    omega

/-- Exchanges the value of the entry in a slot. -/
def revalue (table : Table) (index : Nat) (entry : Entry)
    (value : Option Bytes) : Table :=
  { table with
    slots := table.slots.put index (.occupied { entry with value := value }) }

@[simp]
theorem capacity_revalue (value : Option Bytes) :
    (table.revalue index entry value).capacity = table.capacity :=
  Slots.size_put _ _ _

@[simp]
theorem used_revalue (value : Option Bytes) :
    (table.revalue index entry value).used = table.used :=
  rfl

theorem WellFormed.revalue (hgood : table.WellFormed)
    (hslot : table.slots.get index = .occupied entry) {value : Option Bytes}
    (hvalue : ∀ bytes, value = some bytes →
      bytes ≠ [] ∧ table.valueStride ∣ bytes.length) :
    (table.revalue index entry value).WellFormed where
  toConsistent := by
    have hentry :=
      hgood.fits entry (Slots.mem_entries.mpr ⟨index, hslot⟩)
    have hsound : (table.slots.put index
        (.occupied { entry with value := value })).Sound :=
      hgood.sound.put_update hslot rfl rfl
    apply hgood.put (Slots.lt_size_of_occupied hslot) hsound
    · intro found heq
      rw [Slot.occupied.injEq] at heq
      subst heq
      exact ⟨hentry.hash_eq, hentry.key_ne_nil, hentry.key_dvd, hvalue⟩
    · simp [hslot, Slot.isOccupied]
    · simp [hslot, Slot.isTombstone]
  load := by
    simpa using hgood.load

/-- A table without entries on a blank array. -/
theorem wellFormed_blank {size keyStride valueStride : Nat}
    (hbinary : Ring.IsBinary size) (hleast : Capacity.least ≤ size)
    (hword : size < UInt64.size) (hkey : 0 < keyStride)
    (hvalue : 0 < valueStride) :
    WellFormed ⟨Slots.blank size, 0, 0, keyStride, valueStride⟩ where
  sound := Slots.sound_blank hbinary
  least_le := by simpa [capacity] using hleast
  lt_wordSize := by simpa [capacity] using hword
  count_eq := by simp [Slots.tally_blank, Slot.isOccupied]
  tombstones_eq := by simp [Slots.tally_blank, Slot.isTombstone]
  fits := by simp
  keyStride_pos := hkey
  valueStride_pos := hvalue
  load := Nat.zero_le _

theorem WellFormed.clear (hgood : table.WellFormed) :
    table.clear.WellFormed :=
  wellFormed_blank hgood.sound.binary hgood.least_le hgood.lt_wordSize
    hgood.keyStride_pos hgood.valueStride_pos

end Table

end LinearProbing
