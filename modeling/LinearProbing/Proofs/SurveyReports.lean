import LinearProbing.Proofs.ExactCapacity
import LinearProbing.Proofs.GradualGrowth
import LinearProbing.Proofs.GuardedSurveys
import LinearProbing.Proofs.ReadableLines

/-!
# Reports of surveys

A survey is stopped by nothing but the want of memory, and most numbers of its
report follow from the number of keys and the step.  How many tombstones there
are and how the entries lie about their homes depends on the hashes.  Still
the tombstones are no more than the keys removed, and the rows of the chart
are those of a histogram that counts every entry that is left.
-/

namespace LinearProbing

/-! ## The parts of a report -/

theorem Table.Consistent.payload_of_sized {table : Table}
    (hgood : table.Consistent) {keySize valueSize : Nat}
    (hsized : table.contents.Sized keySize valueSize) :
    table.payload = (keySize + valueSize) * table.count := by
  have hterm : ∀ key ∈ table.contents.keys,
      key.length + ((table.contents.lookup key).getD []).length =
        keySize + valueSize := by
    intro key hkey
    obtain ⟨value, hlookup⟩ :=
      Finmap.mem_iff.mp (Finmap.mem_keys.mp hkey)
    obtain ⟨hkeySize, hvalueSize⟩ := hsized key value hlookup
    rw [hlookup, Option.getD_some, hkeySize, hvalueSize]
  rw [hgood.payload_eq_sum_keys, Finset.sum_congr rfl hterm,
    Finset.sum_const, hgood.card_contents, smul_eq_mul, Nat.mul_comm]

namespace Report

/-- The numbers of a report that depend on the hashes of the keys, and the
rows of its chart.  The load is a number of hundredths of a percent and the
mean distance one of thousandths. -/
structure Figures where
  tombstones : Nat
  load : Nat
  mean : Nat
  rows : List String

/-- The figures of a table with so many entries left. -/
structure Figures.Fit (figures : Figures) (live removed capacity : Nat) :
    Prop where
  tombstones_le : figures.tombstones ≤ removed
  load_shown :
    FixedPlaces.Shows 2
      ((live + figures.tombstones).toUInt64.toFloat /
        capacity.toUInt64.toFloat * 100.0) figures.load
  tallies : Histogram.Tallies live figures.rows
  mean_shown :
    FixedPlaces.Shows 3 (Histogram.ofRows figures.rows).mean figures.mean
  distance_lt :
    capacity ≤ 2 ^ 32 →
      (Histogram.ofRows figures.rows).totalDistance < 2 ^ 64

/-- A count as it comes out of 32 bits with a sign. -/
def wrapped (removed : Nat) : Int :=
  (removed : Int).bmod (2 ^ 32)

/-- The lines of a report. -/
def sheet (entries every capacity : Nat) : Figures → List String
  | ⟨tombstones, load, mean, rows⟩ =>
      let removed := entries ⌈/⌉ every
      let live := entries - removed
      let percent := s!"{load / 100}.{load / 10 % 10}{load % 10}%"
      [s!"Creating HashTable for {entries} entries",
        "Initial capacity: 8"] ++
      (if every = 0 then []
        else [s!"Removed {wrapped removed} entries"]) ++
      [s!"Inserted {live} entries, " ++ s!"final capacity {capacity}",
        "Final load factor: " ++ percent] ++
      (if live = 0 then ["probe histogram: empty"]
        else s!"probe histogram ({live} entries):" :: rows) ++
      ["=== Hash Table Debug Statistics ===",
        s!"Population: {live} live + " ++ s!"{tombstones} tombstones / " ++
          s!"{capacity} slots (" ++ percent ++ " load factor)",
        s!"Probe distance: max {rows.length - 1}, mean " ++
          s!"{mean / 1000}.{mean / 100 % 10}{mean / 10 % 10}{mean % 10}",
        s!"Memory: {48 * capacity} slot bytes + " ++
          s!"{28 * live} payload bytes"]

end Report

namespace Survey

variable {limit entries every removed capacity : Nat} {survey : Survey}

/-- The count of the keys that are removed, if any are to be. -/
def removals (entries every : Nat) : Option Int32 :=
  if every = 0 then none else some (Int32.ofNat (entries ⌈/⌉ every))

def figures (survey : Survey) : Report.Figures where
  tombstones := survey.table.tombstones
  load := FixedPlaces.rounded 2 (survey.table.loadFactor * 100.0)
  mean := FixedPlaces.rounded 3 survey.table.histogram.mean
  rows := survey.table.histogram.rows

theorem total_histogram (hleaves : Leaves entries removed capacity survey.table) :
    survey.table.histogram.total = entries - removed := by
  rw [Table.total_eq_length_entries, hleaves.good.length_entries,
    hleaves.count_eq]

theorem figures_fit (hleaves : Leaves entries removed capacity survey.table) :
    survey.figures.Fit (entries - removed) removed capacity where
  tombstones_le := hleaves.tombstones_le
  load_shown := by
    rw [← hleaves.count_eq, ← hleaves.capacity_eq]
    exact FixedPlaces.shows_rounded 2 _
  tallies := by
    rw [← total_histogram hleaves]
    exact Histogram.tallies (Histogram.trimmed_ofDistances _)
  mean_shown := by
    rw [figures, Histogram.ofRows_rows]
    exact FixedPlaces.shows_rounded 3 _
  distance_lt := by
    rw [figures, Histogram.ofRows_rows, ← hleaves.capacity_eq]
    exact hleaves.good.totalDistance_lt

theorem toInt_ofNat_eq_wrapped (n : Nat) :
    (Int32.ofNat n).toInt = Report.wrapped n :=
  Int32.toInt_ofNat'

theorem toString_ofNat (n : Nat) :
    toString (Int32.ofNat n) = toString (Report.wrapped n) := by
  rw [← toInt_ofNat_eq_wrapped]
  rfl

theorem lines_removed (hremoved : survey.removed = removals entries every) :
    (survey.removed.map fun n => s!"Removed {n} entries").toList =
      if every = 0 then []
      else [s!"Removed {Report.wrapped (entries ⌈/⌉ every)} entries"] := by
  rw [hremoved, removals]
  by_cases hzero : every = 0
  · rw [if_pos hzero, if_pos hzero]
    rfl
  · rw [if_neg hzero, if_neg hzero, ← toString_ofNat]
    rfl

theorem length_rows (survey : Survey) :
    survey.figures.rows.length = survey.table.histogram.bins.length := by
  rw [figures, Histogram.rows, Histogram.byDistance, List.length_map,
    List.length_map, List.length_zipIdx]

theorem lines_eq_sheet (hremoved : survey.removed = removals entries every)
    (hleaves : Leaves entries (entries ⌈/⌉ every) capacity survey.table) :
    s!"Creating HashTable for {entries} entries" ::
        s!"Initial capacity: {start.capacity}" :: survey.lines =
      Report.sheet entries every capacity survey.figures := by
  have hpayload := hleaves.good.payload_of_sized hleaves.sized
  have hfarthest : survey.table.histogram.farthest =
      survey.figures.rows.length - 1 := by
    rw [length_rows]
    exact Histogram.farthest_eq (Histogram.trimmed_ofDistances _)
  have hslots : survey.table.capacity * Statistics.bytesPerSlot =
      48 * capacity := by
    rw [hleaves.capacity_eq, Nat.mul_comm, Statistics.bytesPerSlot]
  have hstart : s!"Initial capacity: {start.capacity}" =
      "Initial capacity: 8" := rfl
  rw [lines, summary, lines_removed hremoved, Histogram.lines_eq_rows,
    total_histogram hleaves, Statistics.lines, Statistics.ofTable, hpayload,
    hfarthest, hslots, Statistics.percent, FixedPlaces.decimal_eq_pointed,
    FixedPlaces.decimal_eq_pointed, FixedPlaces.pointed_two,
    FixedPlaces.pointed_three, hleaves.capacity_eq, hleaves.count_eq,
    hstart, Report.sheet]
  simp only [List.cons_append, List.nil_append, List.append_assoc]
  rfl

/-! ## From the first key to the last line -/

/-- All keys are filled in and the multiples are taken out of them. -/
theorem run_of_climb (every : Nat) (hword : entries ≤ 2 ^ 64)
    (hclimb : Capacity.climb limit entries Capacity.least 0 = some capacity) :
    ∃ survey, run limit entries every start = .ok survey ∧
      survey.removed = removals entries every ∧
      Leaves entries (entries ⌈/⌉ every) capacity survey.table := by
  rcases fill_cases limit hword with ⟨hfilled, hsame, hbuilt⟩ | ⟨-, hnone⟩
  · rw [hclimb, Option.some.injEq] at hsame
    subst hsame
    have hstride := (suits_fill limit entries).keyStride_eq
    have hfinished := Batch.finished_of_stopped_eq_none hfilled
    unfold run
    rw [hfinished]
    dsimp only
    by_cases hzero : every = 0
    · have hkept : entries ⌈/⌉ every = 0 := by
        rw [hzero, ceilDiv_zero]
      rw [if_pos hzero, removals, if_pos hzero, hkept]
      exact ⟨_, rfl, rfl, leaves_filled hbuilt⟩
    · have hevery := Nat.pos_of_ne_zero hzero
      obtain ⟨hthinned, hhits, hloses⟩ :=
        thin_loses hbuilt hstride hword hevery
      rw [if_neg hzero, removals, if_neg hzero,
        Batch.finished_of_stopped_eq_none hthinned]
      exact ⟨_, rfl, congrArg (fun hits => some (Int32.ofNat hits)) hhits,
        leaves_thinned hbuilt hevery hloses⟩
  · rw [hclimb] at hnone
    exact absurd hnone nofun

/-- There is no other fault than that of filling in the keys. -/
theorem run_of_no_climb (every : Nat) (hword : entries ≤ 2 ^ 64)
    (hclimb : Capacity.climb limit entries Capacity.least 0 = none) :
    ∃ fault, run limit entries every start = .error fault := by
  rcases fill_cases limit hword with ⟨-, hsame, -⟩ | ⟨hstopped, -⟩
  · rw [hclimb] at hsame
    exact absurd hsame nofun
  · obtain ⟨fault, hfinished⟩ := Batch.finished_of_stopped_ne_none hstopped
    refine ⟨fault, ?_⟩
    rw [run, hfinished]

end Survey

end LinearProbing
