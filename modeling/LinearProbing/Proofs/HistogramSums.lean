import LinearProbing.Histogram
import Mathlib.Algebra.Order.BigOperators.Group.List
import Mathlib.Algebra.Order.Ring.Nat

/-!
# Sums over a histogram

Recording a distance adds one to the number of distances counted and the
distance itself to their sum.  So of the order of the distances a histogram
keeps neither, and of the distances only how often each occurs.  The largest
bin is the least bound of the bins, and no more than their sum.
-/

namespace LinearProbing.Histogram

/-- The sum of the distances in bins that are numbered from `start`. -/
def weight (start : Nat) (bins : List Nat) : Nat :=
  (bins.zipIdx start).foldr
    (fun (bin, distance) rest => distance * bin + rest) 0

theorem weight_cons (start bin : Nat) (bins : List Nat) :
    weight start (bin :: bins) = start * bin + weight (start + 1) bins := by
  rw [weight, List.zipIdx_cons, List.foldr_cons, weight]

theorem totalDistance_eq_weight (histogram : Histogram) :
    histogram.totalDistance = weight 0 histogram.bins := by
  rw [totalDistance, byDistance, List.foldr_map, weight]

theorem weight_increment (start : Nat) (bins : List Nat) (n : Nat) :
    weight start (increment bins n) = weight start bins + (start + n) := by
  fun_induction increment bins n generalizing start with
  | case1 => simp [weight]
  | case2 n ih =>
      rw [weight_cons, ih]
      simp [weight]
      omega
  | case3 bin bins =>
      rw [weight_cons, weight_cons, Nat.mul_succ]
      omega
  | case4 bin bins n ih =>
      rw [weight_cons, weight_cons, ih]
      omega

@[simp]
theorem totalDistance_record (histogram : Histogram) (distance : Nat) :
    (histogram.record distance).totalDistance =
      histogram.totalDistance + distance := by
  rw [totalDistance_eq_weight, totalDistance_eq_weight, record,
    weight_increment, Nat.zero_add]

theorem foldl_record (histogram : Histogram) (distances : List Nat) :
    (distances.foldl record histogram).total =
        histogram.total + distances.length ∧
      (distances.foldl record histogram).totalDistance =
        histogram.totalDistance + distances.sum := by
  induction distances generalizing histogram with
  | nil => simp
  | cons distance distances ih =>
      obtain ⟨htotal, hsum⟩ := ih (histogram.record distance)
      rw [List.foldl_cons, htotal, hsum, total_record, totalDistance_record,
        List.length_cons, List.sum_cons]
      constructor <;> omega

theorem total_ofDistances (distances : List Nat) :
    (ofDistances distances).total = distances.length := by
  have htotal := (foldl_record blank distances).1
  rwa [show blank.total = 0 from rfl, Nat.zero_add] at htotal

theorem totalDistance_ofDistances (distances : List Nat) :
    (ofDistances distances).totalDistance = distances.sum := by
  have hsum := (foldl_record blank distances).2
  rwa [show blank.totalDistance = 0 from rfl, Nat.zero_add] at hsum

/-! ## The largest bin -/

theorem foldl_max_le_iff {start bound : Nat} {bins : List Nat} :
    bins.foldl max start ≤ bound ↔
      start ≤ bound ∧ ∀ bin ∈ bins, bin ≤ bound := by
  induction bins generalizing start with
  | nil => simp
  | cons bin bins ih =>
      rw [List.foldl_cons, ih, max_le_iff, List.forall_mem_cons, and_assoc]

theorem largestBin_le_iff {histogram : Histogram} {bound : Nat} :
    histogram.largestBin ≤ bound ↔ ∀ bin ∈ histogram.bins, bin ≤ bound := by
  rw [largestBin, foldl_max_le_iff]
  exact and_iff_right (Nat.zero_le bound)

theorem le_largestBin {histogram : Histogram} {bin : Nat}
    (hmem : bin ∈ histogram.bins) : bin ≤ histogram.largestBin :=
  largestBin_le_iff.mp (Nat.le_refl _) bin hmem

theorem largestBin_le_total (histogram : Histogram) :
    histogram.largestBin ≤ histogram.total := by
  rw [largestBin_le_iff, total, ← List.sum_eq_foldr]
  exact fun bin hmem => List.le_sum_of_mem hmem

theorem largestBin_eq_zero_iff {histogram : Histogram} :
    histogram.largestBin = 0 ↔ ∀ bin ∈ histogram.bins, bin = 0 := by
  rw [← Nat.le_zero, largestBin_le_iff]
  simp only [Nat.le_zero]

end LinearProbing.Histogram
