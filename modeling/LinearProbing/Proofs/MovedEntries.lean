import LinearProbing.Proofs.GuardedUpdates
import LinearProbing.Proofs.Session
import LinearProbing.Table.Outline

/-!
# Moving entries without comparing keys

A table that moves to a blank array looks for vacancies alone.  Its entries
could as well be inserted there one by one in slot order, each where a probe
of the array so far finds its key to be absent (`Slots.Places`).  Both ways
fill the same slots: since the keys are distinct, no probe meets an entry of
the key that it looks for, so it ends at the first empty slot of its walk.

The move asks for nothing but distinct keys and a right count.  So it may
start from a table that holds more than its load admits, as a write does.
-/

namespace LinearProbing

namespace Slots

/-- Entries put into an array one after the other, each at the end of a probe
that does not find its key. -/
inductive Places : Slots → List Entry → Slots → Prop
  | nil (slots : Slots) : Places slots [] slots
  | cons {slots last : Slots} {entry : Entry} {rest : List Entry}
      {index : Nat}
      (hprobe : slots.probe entry.key entry.hash = .ok (.absent index))
      (hlater : Places (slots.put index (.occupied entry)) rest last) :
      Places slots (entry :: rest) last

variable {slots last other : Slots} {entries : List Entry}

theorem Places.unique (hlast : slots.Places entries last)
    (hother : slots.Places entries other) : other = last := by
  induction hlast with
  | nil slots =>
      cases hother
      rfl
  | cons hprobe hlater ih =>
      cases hother with
      | cons hprobe' hlater' =>
          rw [hprobe, Except.ok.injEq, Landing.absent.injEq] at hprobe'
          subst hprobe'
          exact ih hlater'

/-- An array that has room for some new entries settles each of them where a
probe for its key ends. -/
theorem Hosts.places (hhosts : slots.Hosts entries)
    (hsettle : slots.settleAll entries = .ok last) :
    slots.Places entries last := by
  induction entries generalizing slots with
  | nil =>
      have hsame : slots = last := Except.ok.inj hsettle
      subst hsame
      exact .nil slots
  | cons entry rest ih =>
      obtain ⟨step, hfirst, habsent, hrest⟩ := hhosts.put_first
      rw [settleAll_cons
        (settle_of_firstEmpty hhosts.sound.binary hfirst)] at hsettle
      exact .cons (probe_of_firstEmpty hfirst habsent) (ih hrest hsettle)

end Slots

namespace Table

variable {table grown : Table} {size : Nat}

/-- What a table is once its entries have moved to a blank array. -/
structure Rebuilt (table : Table) (size : Nat) (grown : Table) : Prop where
  placed :
    ∀ slots, (Slots.blank size).Places table.slots.entries slots ↔
      slots = grown.slots
  entries_perm : grown.slots.entries.Perm table.slots.entries
  capacity_eq : grown.capacity = size
  count_eq : grown.count = grown.slots.entries.length
  tombstones_eq : grown.tombstones = 0
  no_tombstone : ∀ index, grown.slots.get index ≠ .tombstone
  located :
    ∀ index entry, grown.slots.get index = .occupied entry →
      grown.slots.probe entry.key entry.hash = .ok (.present index entry)
  sameStrides : table.SameStrides grown

theorem GrowsInto.no_tombstone (hgrows : table.GrowsInto size grown)
    (index : Nat) : grown.slots.get index ≠ .tombstone := by
  intro hslot
  have htally : grown.slots.tally Slot.isTombstone = 0 := by
    rw [hgrows.settles.tombstones, Slots.tally_blank]
    rfl
  have hindex : index < grown.slots.toList.length := by
    rw [Slots.length_toList]
    exact Slots.lt_size_of_get_ne (by simp [hslot])
  have hmem := List.getElem_mem hindex
  rw [Slots.getElem_toList, hslot] at hmem
  exact absurd (List.countP_eq_zero.mp htally _ hmem) (by decide)

theorem GrowsInto.rebuilt (hgrows : table.GrowsInto size grown)
    (hkeys : (table.slots.entries.map Entry.key).Nodup)
    (hlength : table.slots.entries.length = table.count)
    (hbinary : Ring.IsBinary size) (hroom : table.count ≤ size) :
    table.Rebuilt size grown := by
  have hhosts : (Slots.blank size).Hosts table.slots.entries :=
    Slots.hosts_blank hbinary hkeys (hlength.trans_le hroom)
  have hplaces := hhosts.places hgrows.settles.eq_ok
  constructor
  · intro slots
    constructor
    · exact hplaces.unique
    · rintro rfl
      exact hplaces
  · exact hgrows.entries_perm
  · exact hgrows.capacity_eq
  · rw [hgrows.count_eq, hgrows.entries_perm.length_eq, hlength]
  · exact hgrows.tombstones_eq
  · exact hgrows.no_tombstone
  · intro index entry hslot
    exact hgrows.settles.sound.probe_occupied hslot
  · exact ⟨hgrows.keyStride_eq, hgrows.valueStride_eq⟩

/-- A move ends, with all its checks on an array that a machine word can
number, and it has put every entry where inserting them would. -/
theorem exists_rebuilt (hkeys : (table.slots.entries.map Entry.key).Nodup)
    (hcount : table.count = table.slots.tally Slot.isOccupied)
    (hbinary : Ring.IsBinary size) (hroom : table.count ≤ size) :
    ∃ grown,
      let rehash : Rehash :=
        ⟨table.capacity, size, table.count, table.tombstones⟩
      table.moveInto (Slots.blank size) = .ok (grown, rehash) ∧
        (size < UInt64.size →
          Guarded.moveInto table (Slots.blank size) =
            pure (grown, rehash)) ∧
        table.Rebuilt size grown := by
  have hlength : table.slots.entries.length = table.count := by
    rw [hcount, Slots.length_entries]
  obtain ⟨grown, hgrows, hmove⟩ :=
    moveInto_blank hkeys hlength hbinary hroom
  refine ⟨grown, hmove, ?_,
    hgrows.rebuilt hkeys hlength hbinary hroom⟩
  intro hword
  exact Guarded.moveInto_eq hlength (hroom.trans_lt hword)
    (by rwa [Slots.size_blank]) (by rwa [Slots.size_blank]) hmove

/-- Five entries, one of them round the end of the ring, and a tombstone,
which is all that eight slots admit. -/
def brimful : List Request :=
  [⟨8, .insert (.plain [0]) (.plain [1])⟩,
    ⟨8, .insert (.plain [8]) (.plain [])⟩,
    ⟨8, .insert (.plain [16]) (.plain [2])⟩,
    ⟨8, .insert (.plain [7]) (.plain [])⟩,
    ⟨8, .insert (.plain [1]) (.plain [3])⟩,
    ⟨8, .insert (.plain [2]) (.plain [])⟩,
    ⟨8, .erase (.plain [8])⟩]

/-- A seventh slot is in use for the moment before the table grows. -/
theorem exists_rebuilt_overfull :
    let table := (run ⟨Slots.blank 8, 0, 0, 1, 1⟩ brimful).seat
      (.plain [6]) (.plain []) 1
    table.slotMap = "xoo.oooo" ∧
      ¬ Capacity.Admits table.capacity table.used ∧
      (table.slots.entries.map Entry.key).Nodup ∧
      table.count = table.slots.tally Slot.isOccupied ∧ table.count ≤ 16 ∧
      ∃ grown,
        table.moveInto (Slots.blank 16) = .ok (grown, ⟨8, 16, 6, 1⟩) ∧
          Guarded.moveInto table (Slots.blank 16) =
            pure (grown, ⟨8, 16, 6, 1⟩) ∧
          table.Rebuilt 16 grown := by
  intro table
  have hkeys : (table.slots.entries.map Entry.key).Nodup := by
    decide +kernel
  have hcount : table.count = table.slots.tally Slot.isOccupied := by
    decide +kernel
  have hroom : table.count ≤ 16 := by decide +kernel
  obtain ⟨grown, hmove, hguarded, hrebuilt⟩ :=
    exists_rebuilt hkeys hcount ⟨4, rfl⟩ hroom
  exact ⟨by decide +kernel, by decide +kernel, hkeys, hcount, hroom, grown,
    hmove, hguarded (by decide), hrebuilt⟩

end Table

end LinearProbing
