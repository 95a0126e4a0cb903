import LinearProbing.Proofs.AbandonedDrain
import LinearProbing.Proofs.MovedEntries

/-!
# When a write grows the table

A write that succeeds grows the table if it adds a key and one more slot in
use would be over the load, and not otherwise.  Tombstones are in use when
this is decided and are gone when the table has grown.  One doubling is
always enough (`WellFormed.admits_double`), so the capacity is then exactly
twice what it was.

A key that is there already is written in its slot.  So a table at its limit
still takes new values, whatever memory there is.
-/

namespace LinearProbing.Table

variable {table next : Table} {key value : View} {limit : Nat}
  {rehash : Option Rehash}

/-- One more slot in use would be over the load. -/
def AtLimit (table : Table) : Prop :=
  3 * table.capacity < 4 * (table.count + table.tombstones + 1)

instance (table : Table) : Decidable table.AtLimit :=
  inferInstanceAs (Decidable (_ < _))

theorem atLimit_iff :
    table.AtLimit ↔
      ¬ Capacity.Admits table.capacity (table.used + 1) :=
  Nat.not_le.symm

/-- What a write of a new key made of a table that had no slot left for it. -/
structure Doubles (table : Table) (key value : View) (next : Table)
    (rehash : Option Rehash) : Prop where
  capacity_eq : next.capacity = 2 * table.capacity
  tombstones_eq : next.tombstones = 0
  count_eq : next.count = table.count + 1
  rehash_eq :
    rehash =
      some ⟨table.capacity, 2 * table.capacity, table.count + 1,
        table.tombstones⟩
  found : next.get key = .ok (some value)
  kept :
    ∀ entry ∈ table.slots.entries,
      next.get ⟨entry.key, table.keyStride⟩ =
        .ok (some ⟨entry.valueBytes, table.valueStride⟩)

/-- What a write did to a table that accepted it. -/
structure GrowsAtLimit (table : Table) (key value : View) (next : Table)
    (rehash : Option Rehash) : Prop where
  capacity_ne_iff :
    next.capacity ≠ table.capacity ↔
      key.bytes ∉ table.slots.entries.map Entry.key ∧ table.AtLimit
  doubles :
    next.capacity ≠ table.capacity →
      table.Doubles key value next rehash
  stays :
    next.capacity = table.capacity →
      rehash = none ∧ next.tombstones = table.tombstones

theorem growsAtLimit_of_inPlace
    (hcapacity : next.capacity = table.capacity)
    (htombstones : next.tombstones = table.tombstones)
    (hroom : ¬ (key.bytes ∉ table.slots.entries.map Entry.key ∧
      table.AtLimit)) :
    table.GrowsAtLimit key value next none where
  capacity_ne_iff :=
    ⟨fun hne => absurd hcapacity hne, fun hnew => absurd hnew hroom⟩
  doubles := fun hne => absurd hcapacity hne
  stays := fun _ => ⟨rfl, htombstones⟩

/-- The contents after a write, as lookups see them. -/
theorem WellFormed.get_insert (hgood : table.WellFormed)
    (hnext : next.WellFormed) (hsame : table.SameStrides next)
    (haccept : table.pairFault? key value = none)
    (hcontents :
      next.contents = table.contents.insert key.bytes value.bytes) :
    next.get key = .ok (some value) ∧
      ∀ entry ∈ table.slots.entries, entry.key ≠ key.bytes →
        next.get ⟨entry.key, table.keyStride⟩ =
          .ok (some ⟨entry.valueBytes, table.valueStride⟩) := by
  obtain ⟨hkey, hstride⟩ := pairFault?_eq_none_iff_isKey.mp haccept
  rw [← hsame.key_eq] at hkey ⊢
  constructor
  · rw [hnext.get_eq_lookup hkey, hcontents, Finmap.lookup_insert,
      Option.map_some, hsame.value_eq, ← hstride]
  · intro entry hentry hne
    obtain ⟨index, hslot⟩ := Slots.mem_entries.mp hentry
    have hentryKey := hgood.isKey hentry next.keyStride
    rw [hnext.get_eq_lookup hentryKey, hcontents,
      Finmap.lookup_insert_of_ne _ hne, hgood.lookup_contents hslot,
      Option.map_some, hsame.value_eq]

theorem WriteCase.growsAtLimit {outcome : Outcome Table Written}
    (hcase : WriteCase limit table key value outcome)
    (hgood : table.WellFormed) (hkey : key.Aligned)
    (hvalue : value.Aligned) (hdone : outcome.fault? = none) :
    table.GrowsAtLimit key value outcome.state outcome.rehash := by
  have hnext := hcase.wellFormed hgood hkey hvalue
  have hsame := hcase.sameStrides
  cases hcase with
  | rejected hfault => exact absurd hdone nofun
  | overflowed haccept habsent hfull hword => exact absurd hdone nofun
  | starved haccept habsent hfull hword hlimit => exact absurd hdone nofun
  | replaced haccept hslot hentry =>
      exact growsAtLimit_of_inPlace (capacity_revalue _) rfl
        fun hnew => hnew.1 (Slots.mem_keys.mpr ⟨_, _, hslot, hentry⟩)
  | seated haccept habsent hfirst hload =>
      exact growsAtLimit_of_inPlace (capacity_seat _) rfl
        fun hnew => atLimit_iff.mp hnew.2 hload
  | @grown step grown haccept habsent hfirst hfull hword hlimit hgrows =>
      have hlarger : grown.capacity ≠ table.capacity := by
        rw [hgrows.capacity_eq]
        exact hgood.double_ne
      have hcontents :
          grown.contents = table.contents.insert key.bytes value.bytes :=
        hgrows.contents_eq.trans
          (hgood.contents_seat hkey hvalue haccept habsent hfirst)
      obtain ⟨hfound, hkept⟩ :=
        hgood.get_insert hnext hsame haccept hcontents
      constructor
      · exact ⟨fun _ => ⟨habsent, atLimit_iff.mpr hfull⟩,
          fun _ => hlarger⟩
      · intro _
        refine ⟨hgrows.capacity_eq, hgrows.tombstones_eq, hgrows.count_eq,
          rfl, hfound, ?_⟩
        intro entry hentry
        apply hkept entry hentry
        intro hclash
        exact habsent (hclash ▸ List.mem_map_of_mem hentry)
      · intro hcapacity
        exact absurd hcapacity hlarger

/-- A key that is there is written without more room. -/
theorem WriteCase.of_mem {outcome : Outcome Table Written}
    (hcase : WriteCase limit table key value outcome)
    (haccept : table.pairFault? key value = none)
    (hpresent : key.bytes ∈ table.slots.entries.map Entry.key) :
    outcome.result.map Written.isNew = .ok false ∧
      outcome.state.capacity = table.capacity ∧ outcome.rehash = none := by
  cases hcase with
  | rejected hfault =>
      rw [haccept] at hfault
      exact absurd hfault nofun
  | replaced haccept hslot hentry =>
      exact ⟨rfl, capacity_revalue _, rfl⟩
  | seated haccept habsent => exact absurd hpresent habsent
  | overflowed haccept habsent => exact absurd hpresent habsent
  | starved haccept habsent => exact absurd hpresent habsent
  | grown haccept habsent => exact absurd hpresent habsent

/-- How the writes of a table make it grow. -/
structure GrowsOnWrite (table : Table) : Prop where
  written :
    ∀ limit (key value : AlignedView),
      let outcome := table.write limit key.val value.val
      outcome.fault? = none →
        table.GrowsAtLimit key.val value.val outcome.state outcome.rehash
  inserted :
    ∀ limit (key value : AlignedView),
      let outcome := table.insert limit key.val value.val
      outcome.fault? = none →
        table.GrowsAtLimit key.val value.val outcome.state outcome.rehash
  updated :
    ∀ limit (key value : AlignedView),
      key.val.IsKey table.keyStride →
      value.val.stride = table.valueStride →
      key.val.bytes ∈ table.slots.entries.map Entry.key →
        let outcome := table.insert limit key.val value.val
        outcome.result = .ok false ∧
          outcome.state.capacity = table.capacity ∧ outcome.rehash = none

theorem Reachable.growsOnWrite (hreach : Reachable table) :
    table.GrowsOnWrite := by
  have hgood := hreach.wellFormed
  constructor
  · intro limit key value outcome hdone
    exact (hgood.writeCase limit key.2 value.2).growsAtLimit hgood key.2
      value.2 hdone
  · intro limit key value outcome hdone
    have hwritten : (table.write limit key.val value.val).fault? = none :=
      (Outcome.fault?_map Written.isNew _).symm.trans hdone
    exact (hgood.writeCase limit key.2 value.2).growsAtLimit hgood key.2
      value.2 hwritten
  · intro limit key value hkey hstride hpresent
    exact (hgood.writeCase limit key.2 value.2).of_mem
      (pairFault?_eq_none_iff_isKey.mpr ⟨hkey, hstride⟩) hpresent

/-- At the limit a new value needs no memory and a new key needs twice the
slots, though one of those in use is a tombstone. -/
theorem growsOnWrite_brimful :
    let table := run ⟨Slots.blank 8, 0, 0, 1, 1⟩ brimful
    let grown := table.insert 16 (.plain [6]) (.plain [])
    Reachable table ∧ table.AtLimit ∧ table.slotMap = "xo..oooo" ∧
      (table.insert 0 (.plain [16]) (.plain [9])).result = .ok false ∧
      grown.result = .ok true ∧ grown.rehash = some ⟨8, 16, 6, 1⟩ ∧
      table.Doubles (.plain [6]) (.plain []) grown.state grown.rehash ∧
      table.GrowsOnWrite := by
  intro table grown
  have hreach : Reachable table := reachable_blank.run brimful
  have hdone : grown.fault? = none := by decide +kernel
  have hlarger : grown.state.capacity ≠ table.capacity := by decide +kernel
  have hgrows := hreach.growsOnWrite
  have hgrown := hgrows.inserted 16 (.plain [6]) (.plain []) hdone
  exact ⟨hreach, by decide +kernel, by decide +kernel, by decide +kernel,
    by decide +kernel, by decide +kernel, hgrown.doubles hlarger, hgrows⟩

end LinearProbing.Table
