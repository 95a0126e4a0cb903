import LinearProbing.Proofs.GuardedCounts
import LinearProbing.Proofs.ProbeHistogram
import Mathlib.Algebra.BigOperators.Ring.Finset
import Mathlib.Algebra.Order.BigOperators.Group.Finset

/-!
# The mean distance in machine words

The mean distance is computed from the bins: their sum is the number of the
entries, and their sum with each bin weighted by its distance is the sum of
the distances of all entries from home.  Every entry lies less far from home
than there are slots in use, so the weighted sum is at most quadratic in
these.  Of `2 ^ 32` slots no more than `3 * 2 ^ 30` are in use, and
`9 * 2 ^ 60` fits a machine word, and with it all that is added up on the way.
-/

namespace LinearProbing

theorem Ring.displacement_eq_emod {capacity : Nat}
    (hbinary : IsBinary capacity) (hword : capacity ≤ UInt64.size)
    (index : Nat) (hash : UInt32) :
    (displacement capacity index hash : Int) =
      ((index : Int) - home capacity hash) % capacity := by
  have hhash : hash.toNat < UInt64.size := hash.toNat_lt.trans (by decide)
  obtain ⟨turns, hturns⟩ := dvd_wordSize hbinary hword
  have hround : ((index + (UInt64.size - hash.toNat) : Nat) : Int) =
      (index - hash.toNat) + capacity * turns := by
    rw [← Int.natCast_mul, ← hturns]
    omega
  rw [displacement, home, wrap_eq_mod hbinary, wrap_eq_mod hbinary,
    Int.natCast_emod, hround, Int.add_mul_emod_self_left, Int.natCast_emod,
    Int.sub_emod_emod]

/-! ## Sums over bins -/

namespace Histogram

theorem sum_getD_le (bound : Nat) (values : List Nat) :
    ∑ n ∈ Finset.range bound, values.getD n 0 ≤ values.foldr (· + ·) 0 := by
  induction values generalizing bound with
  | nil => simp
  | cons value values ih =>
      cases bound with
      | zero => simp
      | succ bound =>
          have hlater := ih bound
          rw [Finset.sum_range_succ', List.foldr_cons]
          simp only [List.getD_cons_succ, List.getD_cons_zero]
          omega

/-- What the bins add to the sum of the distances. -/
def products (histogram : Histogram) : List Nat :=
  histogram.byDistance.map fun (distance, bin) => distance * bin

theorem totalDistance_eq_products (histogram : Histogram) :
    histogram.totalDistance = histogram.products.foldr (· + ·) 0 := by
  rw [totalDistance, products, List.foldr_map]

theorem getD_products (histogram : Histogram) (distance : Nat) :
    histogram.products.getD distance 0 =
      distance * histogram.bins.getD distance 0 := by
  rw [products, byDistance, List.map_map, List.getD_eq_getElem?_getD,
    List.getD_eq_getElem?_getD, List.getElem?_map, List.getElem?_zipIdx]
  cases histogram.bins[distance]? with
  | none => simp
  | some bin => simp

end Histogram

/-! ## The guarded mean -/

namespace Guarded

open Histogram (weight weight_cons)

/-- Adds the bins to a sum, from the first to the last. -/
def totalFrom : Nat → List Nat → Guarded Nat
  | sum, [] => pure sum
  | sum, bin :: bins => do
      let next ← add sum bin
      totalFrom next bins

/-- Adds the bins to a sum, each multiplied by its distance. -/
def weightFrom : Nat → Nat → List Nat → Guarded Nat
  | _, sum, [] => pure sum
  | distance, sum, bin :: bins => do
      let product ← mul distance bin
      let next ← add sum product
      let further ← add distance 1
      weightFrom further next bins

/-- A quotient with a divisor that must not be zero. -/
def quotient (m n : Nat) : Guarded Float := do
  demand (n ≠ 0)
  pure (m.toUInt64.toFloat / n.toUInt64.toFloat)

def mean (histogram : Histogram) : Guarded Float := do
  let total ← totalFrom 0 histogram.bins
  if total = 0 then
    pure 0.0
  else do
    let weighted ← weightFrom 0 0 histogram.bins
    quotient weighted total

variable {sum distance : Nat} {bins : List Nat}

theorem totalFrom_eq
    (hword : sum + bins.foldr (· + ·) 0 < UInt64.size) :
    totalFrom sum bins = pure (sum + bins.foldr (· + ·) 0) := by
  induction bins generalizing sum with
  | nil => rfl
  | cons bin bins ih =>
      rw [List.foldr_cons, ← Nat.add_assoc] at hword ⊢
      rw [totalFrom, add_eq (by omega), pure_bind, ih hword]

theorem totalFrom_zero_eq {histogram : Histogram}
    (hword : histogram.total < UInt64.size) :
    totalFrom 0 histogram.bins = pure histogram.total := by
  rw [totalFrom_eq (by rwa [Nat.zero_add]), Nat.zero_add]
  rfl

theorem weightFrom_eq (hword : sum + weight distance bins < UInt64.size)
    (hlength : distance + bins.length < UInt64.size) :
    weightFrom distance sum bins = pure (sum + weight distance bins) := by
  induction bins generalizing distance sum with
  | nil => rfl
  | cons bin bins ih =>
      rw [weight_cons, ← Nat.add_assoc] at hword ⊢
      rw [List.length_cons] at hlength
      have hlater := ih hword (by omega)
      rw [weightFrom, mul_eq (by omega), pure_bind, add_eq (by omega),
        pure_bind, add_eq (by omega), pure_bind, hlater]

theorem mean_eq {histogram : Histogram}
    (htotal : histogram.total < UInt64.size)
    (hdistance : histogram.totalDistance < UInt64.size)
    (hlength : histogram.bins.length < UInt64.size) :
    mean histogram = pure histogram.mean := by
  rw [Histogram.totalDistance_eq_weight] at hdistance
  have hweighted : weightFrom 0 0 histogram.bins =
      pure histogram.totalDistance := by
    rw [weightFrom_eq (by rwa [Nat.zero_add]) (by rwa [Nat.zero_add]),
      Nat.zero_add, Histogram.totalDistance_eq_weight]
  rw [mean, totalFrom_zero_eq htotal, pure_bind, Histogram.mean]
  by_cases hnone : histogram.total = 0
  · rw [if_pos hnone, if_pos hnone]
  · rw [if_neg hnone, if_neg hnone, hweighted, pure_bind, quotient,
      demand_eq hnone, pure_bind]

end Guarded

/-! ## The mean distance of a table -/

namespace Table

variable {table : Table}

theorem Consistent.totalDistance_le (hgood : table.Consistent) :
    table.histogram.totalDistance ≤
      table.count * (table.count + table.tombstones - 1) := by
  have hlength : table.displacements.length = table.count := by
    rw [displacements, List.length_map, Slots.length_placements,
      hgood.length_entries]
  rw [histogram, Histogram.totalDistance_ofDistances, ← hlength]
  apply List.sum_le_card_nsmul
  intro distance hmem
  obtain ⟨index, entry, hslot, rfl⟩ := mem_displacements.mp hmem
  have hlt : Ring.displacement table.capacity index entry.hash <
      table.count + table.tombstones := hgood.displacement_lt_used hslot
  rw [hlength]
  omega

theorem WellFormed.totalDistance_lt (hgood : table.WellFormed)
    (hcapacity : table.capacity ≤ 2 ^ 32) :
    table.histogram.totalDistance < 2 ^ 64 := by
  have hload : 4 * (table.count + table.tombstones) ≤ 3 * table.capacity :=
    hgood.load
  have hquadratic : table.count * (table.count + table.tombstones - 1) ≤
      (3 * 2 ^ 30) * (3 * 2 ^ 30) :=
    Nat.mul_le_mul (by omega) (by omega)
  have hle := hgood.toConsistent.totalDistance_le
  omega

theorem Consistent.totalDistance_eq_sum (hgood : table.Consistent) :
    (table.histogram.totalDistance : Int) =
      (table.slots.placements.map fun (index, entry) =>
        ((index : Int) - Ring.home table.capacity entry.hash) %
          table.capacity).sum := by
  have hword := Nat.le_of_lt hgood.lt_wordSize
  rw [histogram, Histogram.totalDistance_ofDistances, displacements,
    Nat.cast_list_sum, List.map_map]
  congr 1
  apply List.map_congr_left
  rintro ⟨index, entry⟩ -
  exact Ring.displacement_eq_emod hgood.sound.binary hword index entry.hash

theorem Consistent.length_bins_le (hgood : table.Consistent) :
    table.histogram.bins.length ≤ table.used := by
  have htrimmed := Histogram.trimmed_ofDistances table.displacements
  have hlast := Histogram.farthest_eq htrimmed
  by_cases hnone : table.displacements = []
  · rw [histogram, Histogram.bins_ofDistances_eq_nil_iff.mpr hnone]
    exact Nat.zero_le _
  · obtain ⟨index, entry, hslot, hfarthest⟩ :=
      mem_displacements.mp (Histogram.farthest_mem hnone)
    have hlt := hgood.displacement_lt_used hslot
    rw [hfarthest, hlast] at hlt
    unfold histogram
    omega

/-- The mean distance is computed without leaving the machine words, from a
sum over the entries and their number. -/
structure AveragesInWords (table : Table) : Prop where
  product_lt :
    ∀ distance,
      distance * table.histogram.bins.getD distance 0 < 2 ^ 64
  weighted_lt :
    ∀ bound, ∑ distance ∈ Finset.range bound,
      distance * table.histogram.bins.getD distance 0 < 2 ^ 64
  counted_lt :
    ∀ bound, ∑ distance ∈ Finset.range bound,
      table.histogram.bins.getD distance 0 < 2 ^ 64
  checked : Guarded.mean table.histogram = pure table.histogram.mean
  numerator_eq :
    (table.histogram.totalDistance : Int) =
      (table.slots.placements.map fun (index, entry) =>
        ((index : Int) - Ring.home table.capacity entry.hash) %
          table.capacity).sum
  numerator_le :
    table.histogram.totalDistance ≤
      table.count * (table.count + table.tombstones - 1)
  denominator_eq : table.histogram.total = table.count
  mean_eq :
    table.histogram.mean =
      if table.count = 0 then
        0.0
      else
        table.histogram.totalDistance.toUInt64.toFloat /
          table.count.toUInt64.toFloat

theorem Reachable.averagesInWords (hreach : Reachable table)
    (hcapacity : table.capacity ≤ 2 ^ 32) : table.AveragesInWords := by
  have hgood := hreach.wellFormed
  have hload : 4 * (table.count + table.tombstones) ≤ 3 * table.capacity :=
    hgood.load
  have htotal : table.histogram.total = table.count := by
    rw [total_eq_length_entries, hgood.length_entries]
  have hdistance := hgood.totalDistance_lt hcapacity
  have hcount : table.histogram.total < 2 ^ 64 := by omega
  have hweighted : ∀ bound, ∑ distance ∈ Finset.range bound,
      distance * table.histogram.bins.getD distance 0 < 2 ^ 64 := by
    intro bound
    have hle := Histogram.sum_getD_le bound table.histogram.products
    rw [← Histogram.totalDistance_eq_products] at hle
    simp only [Histogram.getD_products] at hle
    exact hle.trans_lt hdistance
  constructor
  · intro distance
    have hsum := hweighted (distance + 1)
    rw [Finset.sum_range_succ] at hsum
    omega
  · exact hweighted
  · intro bound
    exact (Histogram.sum_getD_le bound table.histogram.bins).trans_lt hcount
  · have hlength := hgood.length_bins_le
    have hused := hgood.used_lt
    have hword := hgood.lt_wordSize
    exact Guarded.mean_eq hcount hdistance (by omega)
  · exact hgood.totalDistance_eq_sum
  · exact hgood.totalDistance_le
  · exact htotal
  · rw [Histogram.mean, htotal]

/-- As many keys as eight slots hold, five of them for the first two slots
and the last one, which is left to a tombstone. -/
def strung : List Request :=
  [⟨8, .insert (.plain [5]) (.plain [])⟩,
    ⟨8, .insert (.plain [13]) (.plain [])⟩,
    ⟨8, .insert (.plain [0]) (.plain [])⟩,
    ⟨8, .insert (.plain [8]) (.plain [])⟩,
    ⟨8, .insert (.plain [16]) (.plain [])⟩,
    ⟨8, .insert (.plain [1]) (.plain [])⟩,
    ⟨8, .erase (.plain [0])⟩]

theorem averagesInWords_strung :
    let table := run ⟨Slots.blank 8, 0, 0, 1, 1⟩ strung
    table.slotMap = "ooooo..x" ∧
      table.histogram.bins = [2, 1, 0, 1, 1] ∧
      table.histogram.totalDistance = 8 ∧
      Reachable table ∧ table.capacity ≤ 2 ^ 32 ∧
      table.AveragesInWords := by
  have hreach := reachable_blank.run strung
  have hcapacity : (run ⟨Slots.blank 8, 0, 0, 1, 1⟩ strung).capacity ≤
      2 ^ 32 := by decide +kernel
  exact ⟨by decide +kernel, by decide +kernel, by decide +kernel, hreach,
    hcapacity, hreach.averagesInWords hcapacity⟩

end Table

end LinearProbing
