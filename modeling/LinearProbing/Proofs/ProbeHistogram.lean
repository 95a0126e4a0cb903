import LinearProbing.Proofs.EntryWalks
import LinearProbing.Proofs.InsertionOrder
import LinearProbing.Proofs.ProbeTrails
import Mathlib.Algebra.BigOperators.Group.Finset.Basic

/-!
# The histogram of probes

The histogram is computed from where the entries lie and from nothing that a
lookup has done.  Still it measures lookups: the distance of an entry from
its home is the number of steps that a probe for its key makes
(`Consistent.stepsTo?_occupied`), so a bin counts the keys that are found
after so many steps.

The last bin is never zero, as bins are only made for a distance that is then
counted in the last of them (`Histogram.Trimmed`).  So the number of the last
bin is the distance of some entry, and smaller than the number of slots in
use.
-/

namespace LinearProbing

/-! ## Bins -/

namespace Histogram

variable {bins distances : List Nat}

theorem getD_increment (bins : List Nat) (n other : Nat) :
    (increment bins n).getD other 0 =
      bins.getD other 0 + if other = n then 1 else 0 := by
  fun_induction increment bins n generalizing other with
  | case1 => cases other <;> simp
  | case2 n ih =>
      cases other with
      | zero => simp
      | succ other => simpa using ih other
  | case3 bin bins => cases other <;> simp
  | case4 bin bins n ih =>
      cases other with
      | zero => simp
      | succ other => simpa using ih other

theorem getD_foldl_record (histogram : Histogram) (distances : List Nat)
    (n : Nat) :
    (distances.foldl record histogram).bins.getD n 0 =
      histogram.bins.getD n 0 + distances.count n := by
  induction distances generalizing histogram with
  | nil => simp
  | cons distance distances ih =>
      rw [List.foldl_cons, ih, record, getD_increment, List.count_cons]
      by_cases heq : n = distance
      · simp [heq]
        omega
      · simp [heq, Ne.symm heq]

theorem getD_ofDistances (distances : List Nat) (n : Nat) :
    (ofDistances distances).bins.getD n 0 = distances.count n := by
  have hbins := getD_foldl_record blank distances n
  rwa [show blank.bins.getD n 0 = 0 from rfl, Nat.zero_add] at hbins

theorem bins_ofDistances_eq_nil_iff :
    (ofDistances distances).bins = [] ↔ distances = [] := by
  constructor
  · intro hnil
    rw [List.eq_nil_iff_forall_not_mem]
    intro distance hmem
    have hcount := getD_ofDistances distances distance
    rw [hnil, List.getD_nil] at hcount
    exact List.count_eq_zero.mp hcount.symm hmem
  · rintro rfl
    rfl

/-- There is no zero at the end. -/
def Trimmed (bins : List Nat) : Prop :=
  bins.getLast? ≠ some 0

theorem trimmed_cons (hne : bins ≠ []) (bin : Nat) :
    Trimmed (bin :: bins) ↔ Trimmed bins := by
  cases bins with
  | nil => exact absurd rfl hne
  | cons next bins => rw [Trimmed, List.getLast?_cons_cons, Trimmed]

theorem trimmed_concat {last : Nat} :
    Trimmed (bins.concat last) ↔ last ≠ 0 := by
  simp [Trimmed]

theorem increment_ne_nil (bins : List Nat) (n : Nat) :
    increment bins n ≠ [] := by
  cases bins <;> cases n <;> simp [increment]

theorem Trimmed.increment (htrimmed : Trimmed bins) (n : Nat) :
    Trimmed (increment bins n) := by
  fun_induction Histogram.increment bins n with
  | case1 => simp [Trimmed]
  | case2 n ih =>
      rw [trimmed_cons (increment_ne_nil [] n)]
      exact ih htrimmed
  | case3 bin bins =>
      cases bins with
      | nil => simp [Trimmed]
      | cons next bins =>
          rw [trimmed_cons (by simp)] at htrimmed ⊢
          exact htrimmed
  | case4 bin bins n ih =>
      rw [trimmed_cons (increment_ne_nil bins n)]
      cases bins with
      | nil => exact ih (by simp [Trimmed])
      | cons next bins =>
          rw [trimmed_cons (by simp)] at htrimmed
          exact ih htrimmed

theorem trimmed_ofDistances (distances : List Nat) :
    Trimmed (ofDistances distances).bins := by
  have hfold : ∀ histogram, Trimmed histogram.bins →
      Trimmed (distances.foldl record histogram).bins := by
    induction distances with
    | nil => exact fun _ htrimmed => htrimmed
    | cons distance distances ih =>
        intro histogram htrimmed
        exact ih (histogram.record distance) (htrimmed.increment distance)
  exact hfold blank (by simp [Trimmed, blank])

theorem farthest_eq {histogram : Histogram}
    (htrimmed : Trimmed histogram.bins) :
    histogram.farthest = histogram.bins.length - 1 := by
  unfold farthest byDistance
  rcases List.eq_nil_or_concat histogram.bins with
    hnil | ⟨before, last, hbins⟩
  · rw [hnil]
    rfl
  · rw [hbins] at htrimmed ⊢
    simp [List.zipIdx_append, trimmed_concat.mp htrimmed]

theorem Trimmed.getD_last (htrimmed : Trimmed bins) (hne : bins ≠ []) :
    bins.getD (bins.length - 1) 0 ≠ 0 := by
  obtain hnil | ⟨before, last, rfl⟩ := List.eq_nil_or_concat bins
  · exact absurd hnil hne
  · simpa using trimmed_concat.mp htrimmed

theorem farthest_mem (hne : distances ≠ []) :
    (ofDistances distances).farthest ∈ distances := by
  have htrimmed := trimmed_ofDistances distances
  have hlast := htrimmed.getD_last (mt bins_ofDistances_eq_nil_iff.mp hne)
  rw [← farthest_eq htrimmed, getD_ofDistances] at hlast
  exact List.count_pos_iff.mp (Nat.pos_of_ne_zero hlast)

end Histogram

/-! ## Steps of a lookup -/

namespace Table

variable {table : Table} {index : Nat} {entry : Entry}

/-- The slots that a lookup of the key examines. -/
def examined (table : Table) (key : Bytes) : List Nat :=
  (table.slots.trail key (fnv1a key)).1

/-- How many steps past its home slot a key is found. -/
def stepsTo? (table : Table) (key : Bytes) : Option Nat :=
  match table.locate key with
  | .ok (.present _ _) => some ((table.examined key).length - 1)
  | .ok (.absent _) | .error _ => none

theorem Consistent.firstStop_occupied (hgood : table.Consistent)
    (hslot : table.slots.get index = .occupied entry) :
    table.slots.FirstStop entry.key (fnv1a entry.key)
      (Ring.displacement table.capacity index entry.hash) := by
  have hfits := hgood.fits entry (Slots.mem_entries.mpr ⟨index, hslot⟩)
  obtain ⟨step, hfirst, rfl⟩ := hgood.sound.firstStop_occupied hslot
  have hstep := Ring.displacement_walk hgood.sound.binary
    (Nat.le_of_lt hgood.lt_wordSize) entry.hash hfirst.lt_size
  rw [← hfits.hash_eq]
  exact hstep.symm ▸ hfirst

theorem examined_of_firstStop {key : Bytes} {step : Nat}
    (hfirst : table.slots.FirstStop key (fnv1a key) step) :
    table.examined key =
      (List.range (step + 1)).map
        (Ring.walk table.capacity (fnv1a key)) := by
  rw [examined, hfirst.trail_eq]
  rfl

theorem Consistent.stepsTo?_occupied (hgood : table.Consistent)
    (hslot : table.slots.get index = .occupied entry) :
    table.stepsTo? entry.key =
      some (Ring.displacement table.capacity index entry.hash) := by
  rw [stepsTo?, hgood.locate_occupied hslot,
    examined_of_firstStop (hgood.firstStop_occupied hslot)]
  simp

theorem Consistent.map_some_displacements (hgood : table.Consistent) :
    table.displacements.map some =
      (table.slots.entries.map Entry.key).map table.stepsTo? := by
  rw [displacements, ← Slots.map_snd_placements, List.map_map, List.map_map,
    List.map_map]
  apply List.map_congr_left
  rintro ⟨index, entry⟩ hmem
  exact (hgood.stepsTo?_occupied (Slots.mem_placements.mp hmem)).symm

theorem Consistent.bins_eq_card (hgood : table.Consistent) (n : Nat) :
    table.histogram.bins.getD n 0 =
      (table.contents.keys.filter fun key =>
        table.stepsTo? key = some n).card := by
  have hnodup := hgood.sound.nodup_keys
  have hcount : table.displacements.count n =
      (table.displacements.map some).count (some n) :=
    (List.count_map_of_injective _ _ (Option.some_injective Nat) n).symm
  rw [histogram, Histogram.getD_ofDistances, hcount,
    hgood.map_some_displacements, List.count, List.countP_map,
    List.countP_eq_length_filter, contents, Contents.keys_ofEntries]
  rw [← List.toFinset_card_of_nodup (hnodup.filter _), List.toFinset_filter]
  simp

/-! ## How far a lookup goes -/

theorem mem_displacements {distance : Nat} :
    distance ∈ table.displacements ↔
      ∃ index entry, table.slots.get index = .occupied entry ∧
        Ring.displacement table.capacity index entry.hash = distance := by
  rw [displacements, List.mem_map]
  constructor
  · rintro ⟨⟨index, entry⟩, hmem, hdistance⟩
    exact ⟨index, entry, Slots.mem_placements.mp hmem, hdistance⟩
  · rintro ⟨index, entry, hslot, hdistance⟩
    exact ⟨(index, entry), Slots.mem_placements.mpr hslot, hdistance⟩

theorem Consistent.displacement_lt_used (hgood : table.Consistent)
    (hslot : table.slots.get index = .occupied entry) :
    Ring.displacement table.capacity index entry.hash < table.used := by
  obtain ⟨step, hfirst, rfl⟩ := hgood.sound.firstStop_occupied hslot
  have hlast : table.slots.visited entry.hash step ≠ .empty := by
    rw [Slots.visited, hslot]
    simp
  have hlt := hfirst.lt_tallies hgood.sound.binary hlast
  rw [← hgood.count_eq, ← hgood.tombstones_eq] at hlt
  have hstep := Ring.displacement_walk hgood.sound.binary
    (Nat.le_of_lt hgood.lt_wordSize) entry.hash hfirst.lt_size
  exact hstep.symm ▸ hlt

theorem Consistent.displacements_eq_nil_iff (hgood : table.Consistent) :
    table.displacements = [] ↔ table.count = 0 := by
  rw [← hgood.length_entries, ← Slots.length_placements, displacements,
    List.map_eq_nil_iff, List.length_eq_zero_iff]

theorem WellFormed.exists_examined (hgood : table.WellFormed)
    (key : Bytes) :
    ∃ landing, ∃ steps ≤ table.used, table.locate key = .ok landing ∧
      table.examined key =
        (List.range (steps + 1)).map
          (Ring.walk table.capacity (fnv1a key)) := by
  have hbinary := hgood.sound.binary
  have hempty := hgood.exists_empty hgood.used_lt
  obtain ⟨last, hlast⟩ :=
    Slots.exists_firstEmpty hbinary hempty (fnv1a key)
  obtain ⟨steps, hfirst⟩ := hlast.exists_firstStop key
  have hle := hfirst.le_tallies hbinary
  rw [← hgood.count_eq, ← hgood.tombstones_eq] at hle
  exact ⟨_, steps, hle, Slots.probe_of_firstStop hfirst,
    examined_of_firstStop hfirst⟩

theorem Consistent.payload_eq_sum_keys (hgood : table.Consistent) :
    table.payload =
      ∑ key ∈ table.contents.keys,
        (key.length + ((table.contents.lookup key).getD []).length) := by
  rw [hgood.payload_eq_sum, contents, Contents.keys_ofEntries,
    List.sum_toFinset _ hgood.sound.nodup_keys, List.map_map]
  congr 1
  apply List.map_congr_left
  intro entry hentry
  have hlookup : (Contents.ofEntries table.slots.entries).lookup entry.key =
      some entry.valueBytes :=
    Contents.lookup_ofEntries hgood.sound.nodup_keys hentry
  rw [Function.comp_apply, hlookup, Option.getD_some, Entry.payload]

/-! ## What the statistics measure -/

/-- The histogram and the statistics in terms of lookups and contents. -/
structure MeasuresProbes (table : Table) : Prop where
  bins_eq :
    ∀ n, table.histogram.bins.getD n 0 =
      (table.contents.keys.filter fun key =>
        table.stepsTo? key = some n).card
  displaced :
    ∀ index entry, table.slots.get index = .occupied entry →
      let distance := Ring.displacement table.capacity index entry.hash
      distance < table.count + table.tombstones ∧
        table.locate entry.key = .ok (.present index entry) ∧
        table.stepsTo? entry.key = some distance
  total_eq : table.histogram.total = table.count
  bins_eq_nil_iff : table.histogram.bins = [] ↔ table.count = 0
  trimmed : table.histogram.bins.getLast? ≠ some 0
  farthest_eq :
    table.histogram.farthest = table.histogram.bins.length - 1
  farthest_le :
    table.count ≠ 0 →
      table.histogram.farthest ≤ table.count + table.tombstones - 1 ∧
        table.count + table.tombstones - 1 < table.capacity
  traced :
    ∀ key, (table.slots.trail key (fnv1a key)).2 = table.locate key
  examined :
    ∀ key, ∃ landing steps, table.locate key = .ok landing ∧
      table.examined key =
        ((List.range (steps + 1)).map fun step =>
          ((fnv1a key).toNat + step) % table.capacity) ∧
      (table.examined key).length ≤ table.count + table.tombstones + 1
  reported :
    (Statistics.ofTable table).farthest = table.histogram.farthest
  payloadBytes_eq :
    (Statistics.ofTable table).payloadBytes =
      ∑ key ∈ table.contents.keys,
        (key.length + ((table.contents.lookup key).getD []).length)

theorem Reachable.measuresProbes (hreach : Reachable table) :
    table.MeasuresProbes := by
  have hgood := hreach.wellFormed
  have htrimmed := Histogram.trimmed_ofDistances table.displacements
  constructor
  · exact hgood.bins_eq_card
  · intro index entry hslot
    exact ⟨hgood.displacement_lt_used hslot, hgood.locate_occupied hslot,
      hgood.stepsTo?_occupied hslot⟩
  · rw [total_eq_length_entries, hgood.length_entries]
  · rw [histogram, Histogram.bins_ofDistances_eq_nil_iff,
      hgood.displacements_eq_nil_iff]
  · exact htrimmed
  · exact Histogram.farthest_eq htrimmed
  · intro hcount
    have hne := mt hgood.displacements_eq_nil_iff.mp hcount
    obtain ⟨index, entry, hslot, hfarthest⟩ :=
      mem_displacements.mp (Histogram.farthest_mem hne)
    have hlt : table.histogram.farthest < table.count + table.tombstones :=
      hfarthest ▸ hgood.displacement_lt_used hslot
    have hused : table.count + table.tombstones < table.capacity :=
      hgood.used_lt
    omega
  · intro key
    exact Slots.trailFrom_snd _ _ _ _ _
  · intro key
    obtain ⟨landing, steps, hsteps, hlocate, hexamined⟩ :=
      hgood.exists_examined key
    have hwalk : Ring.walk table.capacity (fnv1a key) =
        fun step => ((fnv1a key).toNat + step) % table.capacity :=
      funext (Ring.walk_eq_mod hgood.sound.binary (fnv1a key))
    refine ⟨landing, steps, hlocate, hwalk ▸ hexamined, ?_⟩
    rw [hexamined, List.length_map, List.length_range]
    exact Nat.succ_le_succ hsteps
  · rfl
  · exact hgood.payload_eq_sum_keys

/-- Keys of one home behind each other, and tombstones between them. -/
def piledUp : List Request :=
  [⟨8, .insert (.plain [0]) (.plain [1, 2])⟩,
    ⟨8, .insert (.plain [8]) (.plain [])⟩,
    ⟨8, .insert (.plain [16]) (.plain [3])⟩,
    ⟨8, .insert (.plain [1]) (.plain [4])⟩,
    ⟨8, .erase (.plain [8])⟩]

theorem measuresProbes_piledUp :
    let table := run ⟨Slots.blank 8, 0, 0, 1, 1⟩ piledUp
    table.slotMap = "xo..o..o" ∧
      table.histogram.bins = [2, 0, 1] ∧
      table.stepsTo? [16] = some 2 ∧ table.stepsTo? [24] = none ∧
      table.examined [24] = [7, 0, 1, 2] ∧
      Reachable table ∧ table.MeasuresProbes := by
  have hreach := reachable_blank.run piledUp
  exact ⟨by decide +kernel, by decide +kernel, by decide +kernel,
    by decide +kernel, by decide +kernel, hreach, hreach.measuresProbes⟩

end Table

end LinearProbing
