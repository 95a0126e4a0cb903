import LinearProbing.Text.Bar
import LinearProbing.Text.Outline

/-!
# Histograms of displacements

Bin `n` counts the entries that lie `n` slots past their home slot.  A bin
exists only up to the largest displacement counted.
-/

namespace LinearProbing

structure Histogram where
  bins : List Nat
deriving DecidableEq

namespace Histogram

def blank : Histogram :=
  ⟨[]⟩

/-- One more in bin `n`, with empty bins up to it where there are none. -/
def increment : List Nat → Nat → List Nat
  | [], 0 => [1]
  | [], n + 1 => 0 :: increment [] n
  | bin :: bins, 0 => (bin + 1) :: bins
  | bin :: bins, n + 1 => bin :: increment bins n

def record (histogram : Histogram) (distance : Nat) : Histogram :=
  ⟨increment histogram.bins distance⟩

def ofDistances (distances : List Nat) : Histogram :=
  distances.foldl record blank

def total (histogram : Histogram) : Nat :=
  histogram.bins.foldr (· + ·) 0

def byDistance (histogram : Histogram) : List (Nat × Nat) :=
  histogram.bins.zipIdx.map fun (bin, distance) => (distance, bin)

/-- The last distance that was counted, or zero if none was. -/
def farthest (histogram : Histogram) : Nat :=
  histogram.byDistance.foldl
    (fun last (distance, bin) => if bin = 0 then last else distance) 0

def totalDistance (histogram : Histogram) : Nat :=
  histogram.byDistance.foldr
    (fun (distance, bin) rest => distance * bin + rest) 0

def mean (histogram : Histogram) : Float :=
  if histogram.total = 0 then
    0.0
  else
    histogram.totalDistance.toUInt64.toFloat /
      histogram.total.toUInt64.toFloat

def largestBin (histogram : Histogram) : Nat :=
  histogram.bins.foldl max 0

def line (largest distance bin : Nat) : String :=
  String.ofList ((toString distance).toList.leftpad 3 ' ') ++ " | " ++
    Bar.render largest bin ++ s!" ({bin})"

def lines (histogram : Histogram) : List String :=
  let largest := histogram.largestBin
  if largest = 0 then
    ["probe histogram: empty"]
  else
    s!"probe histogram ({histogram.total} entries):" ::
      histogram.byDistance.map fun (distance, bin) =>
        line largest distance bin

def outline (histogram : Histogram) : Outline :=
  .record "ProbeHistogram" [.field "bins" (.list (histogram.bins.map .nat))]

theorem foldr_increment (bins : List Nat) (n : Nat) :
    (increment bins n).foldr (· + ·) 0 = bins.foldr (· + ·) 0 + 1 := by
  fun_induction increment bins n with
  | case1 => rfl
  | case2 n ih => simpa using ih
  | case3 bin bins =>
      simp only [List.foldr_cons]
      omega
  | case4 bin bins n ih =>
      simp only [List.foldr_cons, ih]
      omega

@[simp]
theorem total_record (histogram : Histogram) (distance : Nat) :
    (histogram.record distance).total = histogram.total + 1 :=
  foldr_increment histogram.bins distance

end Histogram

end LinearProbing
