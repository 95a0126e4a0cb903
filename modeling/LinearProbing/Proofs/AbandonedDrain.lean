import LinearProbing.Proofs.AcceptedCalls
import LinearProbing.Proofs.DrainSteps
import LinearProbing.Table.Outline

/-!
# Abandoned drains

A drain may be abandoned after any number of calls, and cuts through many
walks at once: entries behind the point that it reached may lie on walks that
began in front of it, or that went round the end of the ring.  The tombstones
hold these walks together.  Every entry that was not yielded is found in the
slot where it was, with its value, and every key that was yielded is gone
(`Leaves`).

A drain that is finished leaves the table that a creation with the same
capacity and strides would leave.
-/

namespace LinearProbing.Table

variable {table : Table} {entry : Entry} {index : Nat}

/-! ## Lookups of entries -/

theorem Consistent.isKey (hgood : table.Consistent)
    (hentry : entry ∈ table.slots.entries) (keyStride : Nat) :
    View.IsKey keyStride ⟨entry.key, keyStride⟩ :=
  ⟨(hgood.fits entry hentry).key_ne_nil, rfl⟩

theorem WellFormed.get_occupied (hgood : table.WellFormed)
    (hslot : table.slots.get index = .occupied entry) :
    table.get ⟨entry.key, table.keyStride⟩ =
      .ok (some ⟨entry.valueBytes, table.valueStride⟩) := by
  have hentry := Slots.mem_entries.mpr ⟨index, hslot⟩
  rw [hgood.get_eq_lookup (hgood.isKey hentry _)]
  dsimp only
  rw [hgood.lookup_contents hslot, Option.map_some]

theorem WellFormed.get_absent (hgood : table.WellFormed) {key : View}
    (hkey : key.IsKey table.keyStride)
    (habsent : key.bytes ∉ table.slots.entries.map Entry.key) :
    table.get key = .ok none ∧ table.contains key = false := by
  rw [← mem_contents] at habsent
  constructor
  · rw [hgood.get_eq_lookup hkey, Finmap.lookup_eq_none.mpr habsent,
      Option.map_none]
  · rw [hgood.contains_eq_mem hkey]
    exact decide_eq_false habsent

/-! ## A table without its first entries -/

/-- What is left of a table once its first entries in slot order have been
taken out and a tombstone put in the place of each. -/
structure Leaves (table : Table) (steps : Nat) (last : Table) : Prop where
  sameStrides : table.SameStrides last
  capacity_eq : last.capacity = table.capacity
  used_eq : last.used = table.used
  count_eq :
    last.count = table.count - min steps table.slots.entries.length
  tombstones_eq :
    last.tombstones =
      table.tombstones + min steps table.slots.entries.length
  get_eq :
    ∀ index, last.slots.get index =
      if ∃ entry ∈ table.slots.entries.take steps,
          table.slots.get index = .occupied entry then
        .tombstone
      else
        table.slots.get index
  kept :
    ∀ entry ∈ table.slots.entries.drop steps, ∃ index,
      table.slots.get index = .occupied entry ∧
        last.slots.get index = .occupied entry ∧
        last.locate entry.key = .ok (.present index entry) ∧
        last.get ⟨entry.key, table.keyStride⟩ =
          .ok (some ⟨entry.valueBytes, table.valueStride⟩)
  gone :
    ∀ entry ∈ table.slots.entries.take steps,
      last.get ⟨entry.key, table.keyStride⟩ = .ok none ∧
        last.contains ⟨entry.key, table.keyStride⟩ = false
  follows :
    ∀ requests : List Request,
      let later := last.run requests
      Contents.Follows table.keyStride table.valueStride
          (.ofEntries (table.slots.entries.drop steps)) requests
          (last.results requests) later.contents ∧
        later.count = later.contents.keys.card

theorem Consistent.key_not_mem_drop (hgood : table.Consistent) {steps : Nat}
    (hentry : entry ∈ table.slots.entries.take steps) :
    entry.key ∉ (table.slots.entries.drop steps).map Entry.key := by
  have hkeys := hgood.sound.nodup_keys
  rw [← List.take_append_drop steps table.slots.entries, List.map_append,
    List.nodup_append] at hkeys
  intro hlater
  exact hkeys.2.2 _ (List.mem_map_of_mem hentry) _ hlater rfl

theorem WellFormed.leaves_take (hgood : table.WellFormed) (steps : Nat) :
    table.Leaves steps (table.drain.take steps).2.table := by
  have honward := hgood.drain_onward
  obtain ⟨-, hleft, hlast⟩ := honward.take steps
  obtain ⟨hcapacity, hused⟩ := honward.usage_take steps
  have hslots := honward.get_take steps
  have hsame := sameStrides_drain table.drain steps
  change table.SameStrides _ at hsame
  change _ = table.slots.entries.drop steps at hleft
  change _ = table.capacity at hcapacity
  change _ = table.used at hused
  generalize (table.drain.take steps).2.table = last at *
  have hbefore := hgood.length_entries
  have hcount := hlast.length_entries
  rw [hleft, List.length_drop] at hcount
  constructor
  · exact hsame
  · exact hcapacity
  · exact hused
  · omega
  · unfold used at hused
    omega
  · exact hslots
  · intro entry hentry
    rw [← hleft] at hentry
    obtain ⟨index, hslot⟩ := Slots.mem_entries.mp hentry
    have hfound := hlast.get_occupied hslot
    rw [hsame.key_eq, hsame.value_eq] at hfound
    have hthere : table.slots.get index = .occupied entry := by
      have hchange := hslots index
      rw [hslot] at hchange
      split at hchange
      · exact absurd hchange nofun
      · exact hchange.symm
    exact ⟨index, hthere, hslot, hlast.locate_occupied hslot, hfound⟩
  · intro entry hentry
    have hkey := hgood.isKey (List.mem_of_mem_take hentry) last.keyStride
    have habsent := hgood.key_not_mem_drop hentry
    rw [← hleft] at habsent
    rw [← hsame.key_eq]
    exact hlast.get_absent hkey habsent
  · intro requests
    have hfollows := hlast.follows requests
    rw [hsame.key_eq, hsame.value_eq, contents, hleft] at hfollows
    exact ⟨hfollows, (wellFormed_run hlast requests).card_contents.symm⟩

/-! ## The two ends of a drain -/

theorem SameStrides.clear_eq {last : Table}
    (hsame : table.SameStrides last)
    (hcapacity : last.capacity = table.capacity) :
    last.clear =
      ⟨Slots.blank table.capacity, 0, 0, table.keyStride,
        table.valueStride⟩ := by
  rw [clear, hcapacity, hsame.key_eq, hsame.value_eq]

/-- What becomes of a table and a drain of it that is asked some number of
times, whether or not there are as many entries. -/
structure Drains (table : Table) (steps : Nat) : Prop where
  yields :
    ∀ step, (table.drain.advance step).next.1 = table.slots.entries[step]?
  abandoned : table.Leaves steps (table.drain.advance steps).abandon
  finished :
    (table.drain.advance steps).finish =
      ⟨Slots.blank table.capacity, 0, 0, table.keyStride,
        table.valueStride⟩
  performed :
    ∀ (limit : Nat) (isAbandoned : Bool),
      let last := table.drain.advance steps
      table.perform ⟨limit, .drain steps isAbandoned⟩ =
        .done (if isAbandoned then last.abandon else last.finish)
          (.listed (table.slots.entries.take steps))

theorem Reachable.drains (hreach : Reachable table) (steps : Nat) :
    table.Drains steps := by
  have hgood := hreach.wellFormed
  have honward := hgood.drain_onward
  have hleaves := hgood.leaves_take steps
  have htable := honward.table_advance steps
  have hyield : (table.drain.take steps).1 =
      table.slots.entries.take steps :=
    (honward.take steps).1
  constructor
  · exact honward.next_advance
  · rw [Drain.abandon, htable]
    exact hleaves
  · rw [Drain.finish, htable]
    exact hleaves.sameStrides.clear_eq hleaves.capacity_eq
  · intro limit isAbandoned
    rw [← hyield]
    simp only [Drain.abandon, Drain.finish, htable]
    rfl

/-- Four keys whose homes are the last two slots, so that two of the entries
lie round the end of the ring, where the drain meets them first. -/
def roundTheEnd : List Request :=
  [⟨8, .insert (.plain [7]) (.plain [1])⟩,
    ⟨8, .insert (.plain [0]) (.plain [])⟩,
    ⟨8, .insert (.plain [15]) (.plain [2])⟩,
    ⟨8, .insert (.plain [8]) (.plain [3])⟩]

theorem drains_roundTheEnd :
    let table := run ⟨Slots.blank 8, 0, 0, 1, 1⟩ roundTheEnd
    let last := (table.drain.advance 1).abandon
    table.slotMap = "oo....oo" ∧ last.slotMap = "xo....oo" ∧
      last.get ⟨[8], 1⟩ = .ok (some ⟨[3], 1⟩) ∧
      Reachable table ∧ table.Drains 1 := by
  have hreach := reachable_blank.run roundTheEnd
  exact ⟨by decide +kernel, by decide +kernel, by decide +kernel, hreach,
    hreach.drains 1⟩

end LinearProbing.Table
