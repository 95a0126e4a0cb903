import LinearProbing.Proofs.CapacityFit
import LinearProbing.Proofs.WellFormed
import LinearProbing.Table.Growth

/-!
# What making room does

Making room leaves the table alone, is refused, or settles all entries on a
blank array of the fitted capacity (`RoomCase`).  The grown table is
well formed and holds the same entries, so growing never fails halfway.
-/

namespace LinearProbing.Table

variable {table grown : Table} {fitted : Nat}

/-- The entries of one table settled on a blank array of another capacity. -/
structure GrowsInto (table : Table) (fitted : Nat) (grown : Table) :
    Prop where
  settles :
    (Slots.blank fitted).Settles table.slots.entries grown.slots
  count_eq : grown.count = table.count
  tombstones_eq : grown.tombstones = 0
  keyStride_eq : grown.keyStride = table.keyStride
  valueStride_eq : grown.valueStride = table.valueStride

theorem GrowsInto.capacity_eq (hgrows : table.GrowsInto fitted grown) :
    grown.capacity = fitted :=
  hgrows.settles.size_eq.trans (Slots.size_blank fitted)

theorem GrowsInto.entries_perm (hgrows : table.GrowsInto fitted grown) :
    grown.slots.entries.Perm table.slots.entries := by
  have hperm := hgrows.settles.perm
  rwa [Slots.entries_blank, List.nil_append] at hperm

theorem GrowsInto.consistent (hgrows : table.GrowsInto fitted grown)
    (hgood : table.Consistent) (hleast : Capacity.least ≤ fitted)
    (hword : fitted < UInt64.size) : grown.Consistent where
  sound := hgrows.settles.sound
  least_le := by rwa [hgrows.capacity_eq]
  lt_wordSize := by rwa [hgrows.capacity_eq]
  count_eq := by
    rw [hgrows.count_eq, ← hgood.length_entries,
      ← hgrows.entries_perm.length_eq, Slots.length_entries]
  tombstones_eq := by
    rw [hgrows.tombstones_eq, hgrows.settles.tombstones, Slots.tally_blank]
    rfl
  fits := by
    intro entry hentry
    rw [hgrows.keyStride_eq, hgrows.valueStride_eq]
    exact hgood.fits entry (hgrows.entries_perm.mem_iff.mp hentry)
  keyStride_pos := by
    rw [hgrows.keyStride_eq]
    exact hgood.keyStride_pos
  valueStride_pos := by
    rw [hgrows.valueStride_eq]
    exact hgood.valueStride_pos

/-- A move asks no more than distinct keys and a right count. -/
theorem moveInto_blank (hkeys : (table.slots.entries.map Entry.key).Nodup)
    (hlength : table.slots.entries.length = table.count)
    (hbinary : Ring.IsBinary fitted) (hroom : table.count ≤ fitted) :
    ∃ grown, table.GrowsInto fitted grown ∧
      table.moveInto (Slots.blank fitted) =
        .ok (grown,
          ⟨table.capacity, fitted, table.count, table.tombstones⟩) := by
  rw [← hlength] at hroom
  obtain ⟨settled, hsettles⟩ :=
    (Slots.hosts_blank hbinary hkeys hroom).exists_settles
  have hsize : settled.size = fitted :=
    hsettles.size_eq.trans (Slots.size_blank fitted)
  refine
    ⟨{ table with
        slots := settled
        count := table.slots.entries.length
        tombstones := 0 },
      ⟨hsettles, hlength, rfl, rfl, rfl⟩, ?_⟩
  simp only [moveInto, hsettles.eq_ok, hsize, hlength]

/-- All that making room can do. -/
inductive RoomCase (limit extra : Nat) (table : Table) :
    Except Fault (Table × Option Rehash) → Prop
  | ample
      (hfit : Capacity.fit table.capacity (table.used + extra) =
        .ok table.capacity) :
      RoomCase limit extra table (.ok (table, none))
  | overflowed
      (hfit : Capacity.fit table.capacity (table.used + extra) =
        .error .capacityOverflow) :
      RoomCase limit extra table (.error .capacityOverflow)
  | starved {fitted : Nat}
      (hfit : Capacity.fit table.capacity (table.used + extra) = .ok fitted)
      (hne : fitted ≠ table.capacity) (hlimit : limit < fitted) :
      RoomCase limit extra table (.error (.allocation fitted))
  | grown {fitted : Nat} {grown : Table}
      (hfit : Capacity.fit table.capacity (table.used + extra) = .ok fitted)
      (hne : fitted ≠ table.capacity) (hlimit : fitted ≤ limit)
      (hgrows : table.GrowsInto fitted grown) :
      RoomCase limit extra table
        (.ok (grown, some
          ⟨table.capacity, fitted, table.count, table.tombstones⟩))

theorem Consistent.roomCase (hgood : table.Consistent)
    (limit extra : Nat) :
    RoomCase limit extra table (table.makeRoom limit extra) := by
  rw [makeRoom]
  cases hfit : Capacity.fit table.capacity (table.used + extra) with
  | error fault =>
      have hfault := Capacity.fitWithin_error hfit
      subst hfault
      exact .overflowed hfit
  | ok fitted =>
      dsimp only
      by_cases heq : fitted = table.capacity
      · subst heq
        rw [if_pos rfl]
        exact .ample hfit
      · rw [if_neg heq, Slots.allocate]
        rcases Nat.lt_or_ge limit fitted with hlimit | hlimit
        · rw [if_pos hlimit]
          exact .starved hfit heq hlimit
        · rw [if_neg (Nat.not_lt.mpr hlimit)]
          have hfits := Capacity.fits_of_fit hfit
          have hadmits : 4 * (table.used + extra) ≤ 3 * fitted :=
            hfits.admits
          have hroom : table.count ≤ fitted := by
            unfold used at hadmits
            omega
          obtain ⟨grown, hgrows, hmove⟩ :=
            moveInto_blank hgood.sound.nodup_keys hgood.length_entries
              (hfits.isBinary hgood.sound.binary) hroom
          simp only [hmove]
          exact .grown hfit heq hlimit hgrows

/-- A table that has grown to a fit is well formed, even if it was overfull
before. -/
theorem GrowsInto.wellFormed (hgrows : table.GrowsInto fitted grown)
    (hgood : table.Consistent) (extra : Nat)
    (hfit : Capacity.fit table.capacity (table.used + extra) = .ok fitted) :
    grown.WellFormed where
  toConsistent := by
    have hfits := Capacity.fits_of_fit hfit
    exact hgrows.consistent hgood (hgood.least_le.trans hfits.le)
      (hfits.lt_wordSize hgood.lt_wordSize)
  load := by
    have hadmits : 4 * (table.used + extra) ≤ 3 * fitted :=
      (Capacity.fits_of_fit hfit).admits
    rw [hgrows.capacity_eq, used, hgrows.count_eq, hgrows.tombstones_eq]
    unfold used at hadmits
    unfold Capacity.Admits
    omega

end LinearProbing.Table
