import LinearProbing.Proofs.Session
import LinearProbing.Table.Outline

/-!
# The representation of a table

What holds of every table that a session can lead to, said of its slots and
counters alone: the capacity is a power of two and at least eight, the
counters are the numbers of entries and tombstones, a quarter of the slots is
empty, keys are stored once with their hash and in whole elements, and
between an entry and the home slot of its hash no slot is empty.
-/

namespace LinearProbing.Table

structure Representation (table : Table) : Prop where
  capacity_eq : ∃ bits, table.capacity = 2 ^ bits
  eight_le : 8 ≤ table.capacity
  count_eq : table.count = table.slots.tally Slot.isOccupied
  tombstones_eq : table.tombstones = table.slots.tally Slot.isTombstone
  load : 4 * (table.count + table.tombstones) ≤ 3 * table.capacity
  quarter_empty : table.capacity ≤ 4 * table.slots.tally Slot.isEmpty
  fits :
    ∀ index entry, table.slots.get index = .occupied entry →
      entry.Fits table.keyStride table.valueStride
  distinct :
    ∀ first second left right,
      table.slots.get first = .occupied left →
      table.slots.get second = .occupied right →
      left.key = right.key → first = second
  chained :
    ∀ index entry, table.slots.get index = .occupied entry →
      ∃ distance < table.capacity,
        index = (entry.hash.toNat + distance) % table.capacity ∧
        ∀ earlier < distance,
          table.slots.get
            ((entry.hash.toNat + earlier) % table.capacity) ≠ .empty
  located :
    ∀ index entry, table.slots.get index = .occupied entry →
      table.slots.probe entry.key entry.hash = .ok (.present index entry)

variable {table : Table}

theorem WellFormed.quarter_empty (hgood : table.WellFormed) :
    table.capacity ≤ 4 * table.slots.tally Slot.isEmpty := by
  have hload : 4 * (table.count + table.tombstones) ≤ 3 * table.capacity :=
    hgood.load
  have hkinds := table.slots.tally_kinds
  rw [← hgood.count_eq, ← hgood.tombstones_eq] at hkinds
  unfold capacity at hload ⊢
  omega

theorem WellFormed.chained (hgood : table.WellFormed) {index : Nat}
    {entry : Entry} (hslot : table.slots.get index = .occupied entry) :
    ∃ distance < table.capacity,
      index = (entry.hash.toNat + distance) % table.capacity ∧
      ∀ earlier < distance,
        table.slots.get
          ((entry.hash.toNat + earlier) % table.capacity) ≠ .empty := by
  obtain ⟨step, hstep, hwalk, hpasses⟩ :=
    hgood.sound.reaches index entry hslot
  rw [Ring.walk_eq_mod hgood.sound.binary] at hwalk
  refine ⟨step, hstep, hwalk.symm, ?_⟩
  intro earlier hearlier
  have hpass := hpasses earlier hearlier
  unfold Slots.visited at hpass
  rwa [Ring.walk_eq_mod hgood.sound.binary] at hpass

theorem Reachable.representation (hreach : Reachable table) :
    table.Representation := by
  have hgood := hreach.wellFormed
  exact
    { capacity_eq := hgood.sound.binary
      eight_le := hgood.least_le
      count_eq := hgood.count_eq
      tombstones_eq := hgood.tombstones_eq
      load := hgood.load
      quarter_empty := hgood.quarter_empty
      fits := fun index entry hslot =>
        hgood.fits entry (Slots.mem_entries.mpr ⟨index, hslot⟩)
      distinct := hgood.sound.distinct
      chained := fun _ _ hslot => hgood.chained hslot
      located := fun _ _ hslot => hgood.sound.probe_occupied hslot }

/-- Two keys whose common home is the last slot, so that the second one lies
round the end of the ring, and the first one erased again. -/
def wrapped : List Request :=
  [⟨8, .insert (.plain [0]) (.plain [1])⟩,
    ⟨8, .insert (.plain [8]) (.plain [])⟩,
    ⟨8, .erase (.plain [0])⟩]

theorem representation_wrapped :
    let table := run ⟨Slots.blank 8, 0, 0, 1, 1⟩ wrapped
    table.slotMap = "o......x" ∧ Reachable table ∧ table.Representation := by
  have hreach := reachable_blank.run wrapped
  exact ⟨by decide +kernel, hreach, hreach.representation⟩

end LinearProbing.Table
