import LinearProbing.Proofs.GuardedWalks
import LinearProbing.Proofs.Layout
import LinearProbing.Statistics

/-!
# Guarded counts

The histogram of displacements and the statistics with their checks.  Bins
are read and written by index, and where there is no bin yet the bins are
widened first.  The difference of an index and a hash is meant to wrap, so it
alone goes unchecked.  No bin outgrows a machine word, since all of them
together count no more than the slots.
-/

namespace LinearProbing.Guarded

/-- Makes bins up to a distance, if they are not there yet. -/
def widen (bins : List Nat) (distance : Nat) : Guarded (List Nat) :=
  if bins.length ≤ distance then do
    let length ← add distance 1
    pure (bins.rightpad length 0)
  else
    pure bins

def bump (bins : List Nat) (distance : Nat) : Guarded (List Nat) :=
  match bins[distance]? with
  | none => throw (.outside distance)
  | some bin => do
      let more ← add bin 1
      pure (bins.set distance more)

/-- A difference of machine words, taken modulo their number. -/
def wrappingSub (m n : Nat) : Nat :=
  (m + (UInt64.size - n)) % UInt64.size

/-- Counts the displacements in slots that are numbered from `index`. -/
def countFrom (capacity : Nat) :
    List Slot → Nat → List Nat → Guarded (List Nat)
  | [], _, bins => pure bins
  | .empty :: cells, index, bins | .tombstone :: cells, index, bins => do
      let next ← add index 1
      countFrom capacity cells next bins
  | .occupied entry :: cells, index, bins => do
      let mask ← sub capacity 1
      let distance := wrappingSub index entry.hash.toNat &&& mask
      let wide ← widen bins distance
      let counted ← bump wide distance
      let next ← add index 1
      countFrom capacity cells next counted

def histogram (table : Table) : Guarded Histogram := do
  let bins ← countFrom table.capacity table.slots.toList 0 []
  pure ⟨bins⟩

/-- The shares and the sums of bytes are taken as they are. -/
def statistics (table : Table) : Guarded Statistics := do
  let counted ← histogram table
  let _ ← add table.count table.tombstones
  let (entries, _) ← list table.count table.cursor
  pure
    { Statistics.ofTable table with
      farthest := counted.farthest
      meanDistance := counted.mean
      payloadBytes :=
        entries.foldr (fun entry rest => entry.payload + rest) 0 }

variable {capacity index : Nat} {table : Table}

/-! ## Bins -/

theorem rightpad_cons (length bin : Nat) (bins : List Nat) :
    (bin :: bins).rightpad (length + 1) 0 = bin :: bins.rightpad length 0 := by
  rw [List.rightpad, List.rightpad, List.length_cons, Nat.add_sub_add_right,
    List.cons_append]

theorem getElem?_rightpad (bins : List Nat) (distance : Nat) :
    (bins.rightpad (distance + 1) 0)[distance]? =
      some (bins.getD distance 0) := by
  induction bins generalizing distance with
  | nil => simp [List.rightpad]
  | cons bin bins ih =>
      rw [rightpad_cons]
      cases distance with
      | zero => rfl
      | succ distance => exact ih distance

theorem increment_eq_set (bins : List Nat) (distance : Nat) :
    Histogram.increment bins distance =
      (bins.rightpad (distance + 1) 0).set distance
        (bins.getD distance 0 + 1) := by
  fun_induction Histogram.increment bins distance with
  | case1 => rfl
  | case2 n ih =>
      rw [ih]
      rfl
  | case3 bin bins => simp [List.rightpad]
  | case4 bin bins n ih =>
      rw [rightpad_cons, ih]
      rfl

theorem getD_le_total (histogram : Histogram) (distance : Nat) :
    histogram.bins.getD distance 0 ≤ histogram.total := by
  unfold Histogram.total
  induction histogram.bins generalizing distance with
  | nil => exact Nat.zero_le _
  | cons bin bins ih =>
      rw [List.foldr_cons]
      cases distance with
      | zero => exact Nat.le_add_right bin _
      | succ distance => exact (ih distance).trans (Nat.le_add_left _ bin)

theorem widen_eq (bins : List Nat) {distance : Nat}
    (hword : distance + 1 < UInt64.size) :
    widen bins distance = pure (bins.rightpad (distance + 1) 0) := by
  rw [widen, add_eq hword, pure_bind]
  by_cases hnew : bins.length ≤ distance
  · rw [if_pos hnew]
  · have hnone : distance + 1 - bins.length = 0 := by omega
    rw [if_neg hnew, List.rightpad, hnone, List.replicate_zero,
      List.append_nil]

/-- Widening and bumping together record one distance. -/
theorem bump_rightpad (histogram : Histogram) (distance : Nat)
    (htotal : histogram.total + 1 < UInt64.size) :
    bump (histogram.bins.rightpad (distance + 1) 0) distance =
      pure (histogram.record distance).bins := by
  have hbin : histogram.bins.getD distance 0 + 1 < UInt64.size := by
    have hle := getD_le_total histogram distance
    omega
  rw [bump, getElem?_rightpad]
  dsimp only
  rw [add_eq hbin, pure_bind, Histogram.record, increment_eq_set]

/-! ## Displacements -/

theorem wrappingSub_and (hbinary : Ring.IsBinary capacity)
    (hword : capacity ≤ UInt64.size) (index : Nat) (hash : UInt32) :
    wrappingSub index hash.toNat &&& capacity - 1 =
      Ring.displacement capacity index hash := by
  change Ring.wrap capacity (wrappingSub index hash.toNat) = _
  rw [Ring.displacement, Ring.wrap_eq_mod hbinary, Ring.wrap_eq_mod hbinary,
    wrappingSub, Nat.mod_mod_of_dvd _ (Ring.dvd_wordSize hbinary hword)]

theorem countFrom_eq (hbinary : Ring.IsBinary capacity)
    (hword : capacity < UInt64.size) {cells : List Slot}
    {counted : Histogram} (hindex : index + cells.length < UInt64.size)
    (htotal : counted.total + cells.length < UInt64.size) :
    countFrom capacity cells index counted.bins =
      pure
        (((Slots.placed index cells).map fun (position, entry) =>
          Ring.displacement capacity position entry.hash).foldl
            Histogram.record counted).bins := by
  induction cells generalizing index counted with
  | nil => rfl
  | cons cell cells ih =>
      rw [List.length_cons] at hindex htotal
      have hnext : index + 1 < UInt64.size := by omega
      rw [Slots.placed_cons]
      cases cell with
      | empty =>
          rw [countFrom, add_eq hnext, pure_bind]
          exact ih (by omega) (by omega)
      | tombstone =>
          rw [countFrom, add_eq hnext, pure_bind]
          exact ih (by omega) (by omega)
      | occupied entry =>
          have hdistance : Ring.displacement capacity index entry.hash + 1 <
              UInt64.size := by
            have hlt : Ring.displacement capacity index entry.hash <
                capacity := Ring.wrap_lt hbinary _
            omega
          have hplace : index + 1 + cells.length < UInt64.size := by omega
          have hrecorded : (counted.record (Ring.displacement capacity index
              entry.hash)).total + cells.length < UInt64.size := by
            rw [Histogram.total_record]
            omega
          have hrest := ih hplace hrecorded
          rw [countFrom, sub_eq hbinary.pos, pure_bind]
          dsimp only
          rw [wrappingSub_and hbinary hword.le, widen_eq _ hdistance,
            pure_bind, bump_rightpad counted _ (by omega), pure_bind,
            add_eq hnext, pure_bind, hrest]
          rfl

theorem histogram_eq (hgood : table.WellFormed) :
    histogram table = pure table.histogram := by
  have hword : table.slots.toList.length < UInt64.size := by
    rw [Slots.length_toList]
    exact hgood.lt_wordSize
  have hindex : 0 + table.slots.toList.length < UInt64.size := by
    rwa [Nat.zero_add]
  have htotal : Histogram.blank.total + table.slots.toList.length <
      UInt64.size := hindex
  have hcount : countFrom table.capacity table.slots.toList 0 [] =
      pure table.histogram.bins :=
    countFrom_eq hgood.sound.binary hgood.lt_wordSize hindex htotal
  rw [histogram, hcount, pure_bind]

theorem statistics_eq (hgood : table.WellFormed) :
    statistics table = pure (.ofTable table) := by
  have hused : table.count + table.tombstones < UInt64.size :=
    hgood.used_lt.trans hgood.lt_wordSize
  rw [statistics, histogram_eq hgood, pure_bind, add_eq hused, pure_bind,
    list_eq, pure_bind]
  rfl

end LinearProbing.Guarded
