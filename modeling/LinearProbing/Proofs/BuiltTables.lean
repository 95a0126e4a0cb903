import LinearProbing.Proofs.SettlingOrder
import LinearProbing.Proofs.TableUpdates
import LinearProbing.Table.Batch

/-!
# Tables built by insertions

A table into which nothing but new keys was inserted is a blank array on
which its entries were settled in some order, whatever rehashes there were on
the way: an insertion without a rehash settles one entry more, and a rehash
settles all of them anew, in slot order.  Its capacity depends on the number
of the insertions alone (`Capacity.climb`), and so does the insertion that is
refused, if one is.
-/

namespace LinearProbing

namespace Capacity

/-- The capacity after some more insertions of new keys, or none if a growth
on the way is refused. -/
def climb (limit : Nat) : Nat → Nat → Nat → Option Nat
  | 0, capacity, _ => some capacity
  | additions + 1, capacity, used =>
      if Admits capacity (used + 1) then
        climb limit additions capacity (used + 1)
      else if 2 * capacity < UInt64.size ∧ 2 * capacity ≤ limit then
        climb limit additions (2 * capacity) (used + 1)
      else
        none

theorem climb_succ (limit additions capacity used : Nat) :
    climb limit (additions + 1) capacity used =
      (climb limit 1 capacity used).bind fun next =>
        climb limit additions next (used + 1) := by
  rw [climb, climb]
  by_cases hadmits : Admits capacity (used + 1)
  · simp [hadmits, climb]
  · by_cases hgrows : 2 * capacity < UInt64.size ∧ 2 * capacity ≤ limit
    · simp [hadmits, hgrows, climb]
    · simp [hadmits, hgrows]

end Capacity

namespace Table

variable {table : Table} {entries : List Entry} {key value : View}

structure Built (table : Table) (entries : List Entry) : Prop where
  good : table.WellFormed
  tombstones_eq : table.tombstones = 0
  perm : table.slots.entries.Perm entries
  settled :
    ∃ order : List Entry, order.Perm entries ∧
      (Slots.blank table.capacity).settleAll order = .ok table.slots

theorem Built.count_eq (hbuilt : table.Built entries) :
    table.count = entries.length := by
  rw [← hbuilt.good.length_entries, hbuilt.perm.length_eq]

theorem Built.used_eq (hbuilt : table.Built entries) :
    table.used = table.count := by
  rw [used, hbuilt.tombstones_eq, Nat.add_zero]

theorem built_blank {capacity keyStride valueStride : Nat}
    (hgood : WellFormed
      ⟨Slots.blank capacity, 0, 0, keyStride, valueStride⟩) :
    Built ⟨Slots.blank capacity, 0, 0, keyStride, valueStride⟩ [] where
  good := hgood
  tombstones_eq := rfl
  perm := by rw [Slots.entries_blank]
  settled := by
    refine ⟨[], .nil, ?_⟩
    rw [Table.capacity, Slots.size_blank]
    rfl

/-! ## One insertion -/

/-- What one insertion of a new key makes of a built table. -/
structure Extends (limit : Nat) (table : Table) (entries : List Entry)
    (entry : Entry) (next : Table) : Prop where
  built : next.Built (entries ++ [entry])
  climb_eq :
    Capacity.climb limit 1 table.capacity table.count = some next.capacity
  count_eq : next.count = table.count + 1
  keyStride_eq : next.keyStride = table.keyStride
  valueStride_eq : next.valueStride = table.valueStride

theorem Built.perm_seat (hbuilt : table.Built entries) {step : Nat}
    (hfirst : table.slots.FirstEmpty (fnv1a key.bytes) step) :
    (table.seat key value step).slots.entries.Perm
      (entries ++ [Entry.ofViews key value]) := by
  have hindex : Ring.walk table.capacity (fnv1a key.bytes) step <
      table.slots.size := Ring.walk_lt hbuilt.good.sound.binary _ _
  have hseat := Slots.entries_put_perm hindex hfirst.empty
    (Entry.ofViews key value)
  exact (hseat.trans (hbuilt.perm.cons _)).trans
    (List.perm_append_singleton _ _).symm

theorem Built.extends_seat (hbuilt : table.Built entries) {limit step : Nat}
    (hfirst : table.slots.FirstEmpty (fnv1a key.bytes) step)
    (hload : Capacity.Admits table.capacity (table.used + 1))
    (hgood : (table.seat key value step).WellFormed) :
    Extends limit table entries (Entry.ofViews key value)
      (table.seat key value step) where
  built := by
    rcases hbuilt.settled with ⟨order, horder, hsettled⟩
    have hsettle : table.slots.settle (Entry.ofViews key value) =
        .ok (table.seat key value step).slots :=
      Slots.settle_of_firstEmpty hbuilt.good.sound.binary hfirst
    refine ⟨hgood, hbuilt.tombstones_eq, hbuilt.perm_seat hfirst, ?_⟩
    refine ⟨order ++ [Entry.ofViews key value], horder.append_right _, ?_⟩
    rw [capacity_seat, Slots.settleAll_append hsettled,
      Slots.settleAll_cons hsettle]
    rfl
  climb_eq := by
    rw [hbuilt.used_eq] at hload
    rw [capacity_seat, Capacity.climb, if_pos hload, Capacity.climb]
  count_eq := rfl
  keyStride_eq := rfl
  valueStride_eq := rfl

theorem Built.extends_grown (hbuilt : table.Built entries)
    {limit step : Nat} {grown : Table}
    (hfirst : table.slots.FirstEmpty (fnv1a key.bytes) step)
    (hfull : ¬ Capacity.Admits table.capacity (table.used + 1))
    (hword : 2 * table.capacity < UInt64.size)
    (hlimit : 2 * table.capacity ≤ limit)
    (hgrows : (table.seat key value step).GrowsInto (2 * table.capacity)
      grown)
    (hgood : grown.WellFormed) :
    Extends limit table entries (Entry.ofViews key value) grown where
  built := by
    have hseat : (table.seat key value step).slots.entries.Perm
        (entries ++ [Entry.ofViews key value]) := hbuilt.perm_seat hfirst
    refine ⟨hgood, hgrows.tombstones_eq, hgrows.entries_perm.trans hseat, ?_⟩
    refine ⟨_, hseat, ?_⟩
    rw [hgrows.capacity_eq]
    exact hgrows.settles.eq_ok
  climb_eq := by
    rw [hbuilt.used_eq] at hfull
    rw [hgrows.capacity_eq, Capacity.climb, if_neg hfull,
      if_pos ⟨hword, hlimit⟩, Capacity.climb]
  count_eq := hgrows.count_eq
  keyStride_eq := hgrows.keyStride_eq
  valueStride_eq := hgrows.valueStride_eq

/-- A new key is added, or there is no climbing on. -/
theorem Built.insert_cases (hbuilt : table.Built entries) (limit : Nat)
    (hkey : key.Aligned) (hvalue : value.Aligned)
    (haccept : table.pairFault? key value = none)
    (hfresh : key.bytes ∉ entries.map Entry.key) :
    (∃ next rehash,
        table.insert limit key value = ⟨.ok true, next, rehash⟩ ∧
        Extends limit table entries (Entry.ofViews key value) next) ∨
      (∃ fault, table.insert limit key value = .refused table fault) ∧
        Capacity.climb limit 1 table.capacity table.count = none := by
  have hcase := hbuilt.good.writeCase limit hkey hvalue
  have hgood := hcase.wellFormed hbuilt.good hkey hvalue
  have habsent : key.bytes ∉ table.slots.entries.map Entry.key := by
    rwa [(hbuilt.perm.map Entry.key).mem_iff]
  unfold insert
  generalize table.write limit key value = outcome at hcase hgood ⊢
  cases hcase with
  | rejected hfault => simp [haccept] at hfault
  | replaced haccept hslot hsame =>
      exact absurd (Slots.mem_keys.mpr ⟨_, _, hslot, hsame⟩) habsent
  | seated haccept habsent hfirst hload =>
      exact Or.inl ⟨_, _, rfl, hbuilt.extends_seat hfirst hload hgood⟩
  | overflowed haccept habsent hfull hword =>
      rw [hbuilt.used_eq] at hfull
      refine Or.inr ⟨⟨_, rfl⟩, ?_⟩
      rw [Capacity.climb, if_neg hfull, if_neg (by omega)]
  | starved haccept habsent hfull hword hlimit =>
      rw [hbuilt.used_eq] at hfull
      refine Or.inr ⟨⟨_, rfl⟩, ?_⟩
      rw [Capacity.climb, if_neg hfull, if_neg (by omega)]
  | grown haccept habsent hfirst hfull hword hlimit hgrows =>
      exact Or.inl ⟨_, _, rfl,
        hbuilt.extends_grown hfirst hfull hword hlimit hgrows hgood⟩

/-! ## A batch of insertions -/

/-- A pair that a table of these strides can store. -/
structure Storable (keyStride valueStride : Nat) (pair : View × View) :
    Prop where
  key_aligned : pair.1.Aligned
  value_aligned : pair.2.Aligned
  key_ne_nil : pair.1.bytes ≠ []
  keyStride_eq : pair.1.stride = keyStride
  valueStride_eq : pair.2.stride = valueStride

theorem Storable.accepted {pair : View × View}
    (hstorable : Storable table.keyStride table.valueStride pair) :
    table.pairFault? pair.1 pair.2 = none := by
  rw [pairFault?_eq_none_iff, keyFault?_eq_none_iff]
  exact ⟨⟨hstorable.key_ne_nil, hstorable.keyStride_eq⟩,
    hstorable.valueStride_eq⟩

def entryOf (pair : View × View) : Entry :=
  .ofViews pair.1 pair.2

/-- A batch of new keys runs to its end exactly if there is a capacity to
climb to. -/
theorem Built.runFrom_cases (hbuilt : table.Built entries) (limit : Nat)
    {pairs : List (View × View)}
    (hstorable : ∀ pair ∈ pairs,
      Storable table.keyStride table.valueStride pair)
    (hkeys : ((entries ++ pairs.map entryOf).map Entry.key).Nodup)
    (hits misses : Nat) (rehashes : List Rehash) :
    let batch := Batch.runFrom
      (fun table pair => table.insert limit pair.1 pair.2) pairs table hits
      misses rehashes
    let climbed :=
      Capacity.climb limit pairs.length table.capacity table.count
    (batch.stopped = none ∧ climbed = some batch.table.capacity ∧
        batch.table.Built (entries ++ pairs.map entryOf)) ∨
      (batch.stopped ≠ none ∧ climbed = none) := by
  induction pairs generalizing table entries hits misses rehashes with
  | nil =>
      refine Or.inl ⟨rfl, rfl, ?_⟩
      rw [List.map_nil, List.append_nil]
      exact hbuilt
  | cons pair pairs ih =>
      have hpair := hstorable pair (by simp)
      have hshift : entries ++ (pair :: pairs).map entryOf =
          (entries ++ [entryOf pair]) ++ pairs.map entryOf := by simp
      have hfresh : pair.1.bytes ∉ entries.map Entry.key := by
        rw [List.map_append, List.nodup_append] at hkeys
        intro hmem
        exact hkeys.2.2 _ hmem _ (by simp [entryOf, Entry.ofViews]) rfl
      dsimp only
      rw [hshift, List.length_cons, Capacity.climb_succ, Batch.runFrom]
      rcases hbuilt.insert_cases limit hpair.key_aligned
          hpair.value_aligned hpair.accepted hfresh with
        ⟨next, rehash, hinsert, hextends⟩ | ⟨⟨fault, hinsert⟩, hclimb⟩
      · rw [hinsert, hextends.climb_eq]
        have hlater : ∀ later ∈ pairs,
            Storable next.keyStride next.valueStride later := by
          intro later hlater
          rw [hextends.keyStride_eq, hextends.valueStride_eq]
          exact hstorable later (List.mem_cons_of_mem pair hlater)
        have hrest := ih hextends.built hlater (hshift ▸ hkeys) (hits + 1)
          misses (rehashes ++ rehash.toList)
        rw [hextends.count_eq] at hrest
        exact hrest
      · rw [hinsert, hclimb]
        exact Or.inr ⟨by simp [Outcome.refused], rfl⟩

end Table

end LinearProbing
