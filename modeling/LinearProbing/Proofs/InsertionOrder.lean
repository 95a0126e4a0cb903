import LinearProbing.Proofs.BuiltTables
import LinearProbing.Proofs.HistogramSums
import LinearProbing.Proofs.Traversal
import LinearProbing.Statistics

/-!
# The order of insertion does not show

Two tables built from the same pairs in different orders may differ in which
entry lies in which slot, and in nothing else that their layout shows: they
have the same capacity, the same slots in use and so the same outline, the
same sum and mean of distances from home, and the same payload.

At the end both tables are settled from a blank array of the same capacity,
so this is the theorem on the order of settling (`Slots.settleAll_perm`).
-/

namespace LinearProbing

namespace Slots

variable {left right : Slots}

theorem Alike.isOccupied_eq (halike : left.Alike right) (index : Nat) :
    (left.get index).isOccupied = (right.get index).isOccupied := by
  have hmark := halike.mark_eq index
  cases hleft : left.get index <;> cases hright : right.get index <;>
    simp_all [Slot.mark, Slot.isOccupied]

end Slots

namespace Table

variable {table left right : Table} {entries others : List Entry}

/-! ## What is read off the layout -/

theorem slotRows_eq_marks (table : Table) :
    table.slotRows =
      (List.range ((table.capacity + 15) / 16)).map fun row =>
        String.ofList
          (table.slots.marks.extract (16 * row) (16 * row + 16)) := by
  unfold slotRows Slots.marks Slots.toList
  apply List.map_congr_left
  intro row _
  dsimp only
  rw [Array.toList_extract, List.extract_eq_take_drop,
    List.extract_eq_take_drop, List.map_take, List.map_drop]

theorem totalDistance_eq_spread (table : Table) :
    table.histogram.totalDistance = table.slots.spread :=
  Histogram.totalDistance_ofDistances table.displacements

theorem total_eq_length_entries (table : Table) :
    table.histogram.total = table.slots.entries.length := by
  rw [histogram, Histogram.total_ofDistances, displacements,
    List.length_map, Slots.length_placements]

theorem Consistent.payload_eq_sum (hgood : table.Consistent) :
    table.payload = (table.slots.entries.map Entry.payload).sum := by
  rw [payload, hgood.entries_eq]
  induction table.slots.entries with
  | nil => rfl
  | cons entry entries ih =>
      rw [List.foldr_cons, ih, List.map_cons, List.sum_cons]

/-! ## Two orders of insertion -/

structure SameLayout (left right : Table) : Prop where
  capacity_eq : left.capacity = right.capacity
  occupied_eq :
    ∀ index, (left.slots.get index).isOccupied =
      (right.slots.get index).isOccupied
  outline_eq : left.outline = right.outline
  count_eq : left.count = right.count
  tombstones_left : left.tombstones = 0
  tombstones_right : right.tombstones = 0
  totalDistance_eq :
    left.histogram.totalDistance = right.histogram.totalDistance
  meanDistance_eq :
    (Statistics.ofTable left).meanDistance =
      (Statistics.ofTable right).meanDistance
  payloadBytes_eq :
    (Statistics.ofTable left).payloadBytes =
      (Statistics.ofTable right).payloadBytes
  entries_perm : left.entries.Perm right.entries

theorem Built.alike (hleft : left.Built entries)
    (hright : right.Built others) (hperm : entries.Perm others)
    (hcapacity : left.capacity = right.capacity) :
    left.slots.Alike right.slots := by
  rcases hleft.settled with ⟨first, hfirst, hsettled⟩
  rcases hright.settled with ⟨second, hsecond, hsettled'⟩
  rw [← hcapacity] at hsettled'
  have horders : first.Perm second :=
    (hfirst.trans hperm).trans hsecond.symm
  have hring : (Slots.blank left.capacity).Ringed := by
    constructor
    · rw [Slots.size_blank]
      exact hleft.good.sound.binary
    · rw [Slots.size_blank]
      exact Nat.le_of_lt hleft.good.lt_wordSize
  have hroom : first.length ≤ (Slots.blank left.capacity).vacancies := by
    have hused := hleft.good.used_lt
    rw [hleft.used_eq, hleft.count_eq] at hused
    rw [Slots.vacancies_blank, hfirst.length_eq]
    omega
  obtain ⟨settled, other, heq, heq', halike⟩ :=
    Slots.settleAll_perm horders (.refl _) hring hroom
  rw [hsettled, Except.ok.injEq] at heq
  rw [hsettled', Except.ok.injEq] at heq'
  rwa [heq, heq']

theorem Built.sameLayout (hleft : left.Built entries)
    (hright : right.Built others) (hperm : entries.Perm others)
    (hcapacity : left.capacity = right.capacity) :
    left.SameLayout right := by
  have halike := hleft.alike hright hperm hcapacity
  have hentries : left.slots.entries.Perm right.slots.entries :=
    (hleft.perm.trans hperm).trans hright.perm.symm
  have hcount : left.count = right.count := by
    rw [hleft.count_eq, hright.count_eq, hperm.length_eq]
  have htotal : left.histogram.total = right.histogram.total := by
    rw [total_eq_length_entries, total_eq_length_entries,
      hentries.length_eq]
  have hdistance :
      left.histogram.totalDistance = right.histogram.totalDistance := by
    rw [totalDistance_eq_spread, totalDistance_eq_spread,
      halike.spread_eq]
  refine
    { capacity_eq := hcapacity
      occupied_eq := halike.isOccupied_eq
      outline_eq := ?_
      count_eq := hcount
      tombstones_left := hleft.tombstones_eq
      tombstones_right := hright.tombstones_eq
      totalDistance_eq := hdistance
      meanDistance_eq := ?_
      payloadBytes_eq := ?_
      entries_perm := ?_ }
  · unfold outline
    rw [slotRows_eq_marks, slotRows_eq_marks, halike.marks_eq, hcapacity,
      hcount, hleft.tombstones_eq, hright.tombstones_eq]
  · change left.histogram.mean = right.histogram.mean
    unfold Histogram.mean
    rw [htotal, hdistance]
  · change left.payload = right.payload
    rw [hleft.good.payload_eq_sum, hright.good.payload_eq_sum,
      (hentries.map Entry.payload).sum_nat]
  · rwa [hleft.good.entries_eq, hright.good.entries_eq]

/-- Pairs of distinct keys, inserted into a new table in two orders. -/
theorem insertAll_perm {limit room allowed keyStride valueStride : Nat}
    (hcreate : create allowed room keyStride valueStride = .ok table)
    {pairs turned : List (View × View)} (hperm : pairs.Perm turned)
    (hstorable : ∀ pair ∈ pairs, Storable keyStride valueStride pair)
    (hkeys : (pairs.map fun pair => pair.1.bytes).Nodup)
    (hdone : (table.insertAll limit pairs).stopped = none) :
    (table.insertAll limit turned).stopped = none ∧
      (table.insertAll limit pairs).table.SameLayout
        (table.insertAll limit turned).table := by
  obtain ⟨hgood, capacity, -, -, rfl⟩ := wellFormed_create hcreate
  have hbuilt := built_blank hgood
  have hstorable' : ∀ pair ∈ turned,
      Storable keyStride valueStride pair := by
    intro pair hpair
    exact hstorable pair (hperm.mem_iff.mpr hpair)
  have hentries : (pairs.map entryOf).Perm (turned.map entryOf) :=
    hperm.map entryOf
  have hfresh : (([] ++ pairs.map entryOf).map Entry.key).Nodup := by
    rw [List.nil_append, List.map_map]
    exact hkeys
  have hfresh' : (([] ++ turned.map entryOf).map Entry.key).Nodup :=
    (hentries.map Entry.key).nodup_iff.mp hfresh
  have hfirst := hbuilt.runFrom_cases limit hstorable hfresh 0 0 []
  have hsecond := hbuilt.runFrom_cases limit hstorable' hfresh' 0 0 []
  rcases hfirst with ⟨-, hclimb, hleft⟩ | ⟨hstopped, -⟩
  · rw [hperm.length_eq] at hclimb
    rcases hsecond with ⟨hdone', hclimb', hright⟩ | ⟨-, hnone⟩
    · rw [hclimb, Option.some.injEq] at hclimb'
      exact ⟨hdone', hleft.sameLayout hright hentries hclimb'⟩
    · rw [hclimb] at hnone
      simp at hnone
  · exact absurd hdone hstopped

/-- Seven keys of one byte, some of which share their home, so that a table
of eight slots has to grow for the last of them. -/
def colliding : List (View × View) :=
  [0, 8, 16, 1, 9, 2, 3].map fun byte => (.plain [byte], .plain [byte, byte])

theorem insertAll_perm_reversed :
    let table : Table := ⟨Slots.blank 8, 0, 0, 1, 1⟩
    let forth := table.insertAll 16 colliding
    let back := table.insertAll 16 colliding.reverse
    forth.stopped = none ∧ back.stopped = none ∧
      forth.table ≠ back.table ∧ forth.table.capacity = 16 ∧
      forth.table.SameLayout back.table := by
  have hcreate : create 8 0 1 1 = .ok ⟨Slots.blank 8, 0, 0, 1, 1⟩ := rfl
  have hdone : (insertAll 16 ⟨Slots.blank 8, 0, 0, 1, 1⟩
      colliding).stopped = none := by decide +kernel
  have hstorable : ∀ pair ∈ colliding, Storable 1 1 pair := by
    intro pair hpair
    rcases List.mem_map.mp hpair with ⟨byte, -, rfl⟩
    exact ⟨View.aligned_plain _, View.aligned_plain _, by simp [View.plain],
      rfl, rfl⟩
  obtain ⟨hback, hsame⟩ := insertAll_perm hcreate
    (List.reverse_perm colliding).symm hstorable (by decide) hdone
  exact ⟨hdone, hback, by decide +kernel, by decide +kernel, hsame⟩

end Table

end LinearProbing
