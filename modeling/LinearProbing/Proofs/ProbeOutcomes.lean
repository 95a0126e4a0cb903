import LinearProbing.Proofs.GuardedSearch
import LinearProbing.Proofs.ProbeTrails

/-!
# Outcomes of a probe

The walk of a hash is a tour of the ring that comes to every slot once, so of
two slots one is met before the other.  A probe ends at the slot that stops
it and is preceded by none that does, and it is exhausted if no slot of the
array stops it.  This holds of every array: a key may stand in it twice, a
hash may be stale, and there may be no empty slot.

The search for a vacancy knows no keys.  It ends where a probe ends that
found its key absent, since that probe was stopped by the first empty slot.
-/

namespace LinearProbing

/-! ## The tour of a hash -/

namespace Ring

variable {capacity index step : Nat} {hash : UInt32}

/-- All slots, in the order in which the walk of a hash meets them. -/
def tour (capacity : Nat) (hash : UInt32) : List Nat :=
  (List.range capacity).map fun step =>
    (hash.toNat % capacity + step) % capacity

/-- The first slot is met before the second on the tour of the hash. -/
def Precedes (capacity : Nat) (hash : UInt32) (first second : Nat) : Prop :=
  ∃ earlier later : Nat, earlier < later ∧
    (tour capacity hash)[earlier]? = some first ∧
    (tour capacity hash)[later]? = some second

theorem tour_eq_map_walk (hbinary : IsBinary capacity) (hash : UInt32) :
    tour capacity hash =
      (List.range capacity).map (walk capacity hash) := by
  apply List.map_congr_left
  intro step _
  rw [walk_eq_mod hbinary, Nat.mod_add_mod]

theorem tour_perm (hbinary : IsBinary capacity) (hash : UInt32) :
    (tour capacity hash).Perm (List.range capacity) := by
  rw [tour_eq_map_walk hbinary]
  have hnodup := nodup_map_walk hbinary hash (Nat.le_refl capacity)
  apply (List.perm_ext_iff_of_nodup hnodup List.nodup_range).mpr
  intro index
  rw [List.mem_map, List.mem_range]
  constructor
  · rintro ⟨step, -, rfl⟩
    exact walk_lt hbinary hash step
  · intro hindex
    obtain ⟨step, hstep, hwalk⟩ := exists_walk_eq hbinary hash hindex
    exact ⟨step, List.mem_range.mpr hstep, hwalk⟩

theorem getElem?_tour_eq_some_iff (hbinary : IsBinary capacity) :
    (tour capacity hash)[step]? = some index ↔
      step < capacity ∧ walk capacity hash step = index := by
  rw [tour_eq_map_walk hbinary, List.getElem?_eq_some_iff]
  simp

theorem precedes_walk_iff (hbinary : IsBinary capacity)
    (hstep : step < capacity) :
    Precedes capacity hash index (walk capacity hash step) ↔
      ∃ earlier < step, walk capacity hash earlier = index := by
  unfold Precedes
  simp only [getElem?_tour_eq_some_iff hbinary]
  constructor
  · rintro ⟨earlier, later, hlt, ⟨-, hindex⟩, hlater, hmeet⟩
    -- the tour comes to the slot of `step` at no other step
    have hsame : later = step := walk_injective hbinary hlater hstep hmeet
    exact ⟨earlier, hsame ▸ hlt, hindex⟩
  · rintro ⟨earlier, hlt, hindex⟩
    exact ⟨earlier, step, hlt, ⟨hlt.trans hstep, hindex⟩, hstep, rfl⟩

end Ring

/-! ## Where a probe ends -/

/-- An entry of the key lies in the slot, and under this hash. -/
def Slot.Holds (key : Bytes) (hash : UInt32) (slot : Slot) : Prop :=
  ∃ entry, slot = .occupied entry ∧ entry.hash = hash ∧ entry.key = key

theorem Slot.stops_iff {key : Bytes} {hash : UInt32} {slot : Slot} :
    slot.Stops key hash ↔ slot = .empty ∨ slot.Holds key hash := by
  cases slot <;> simp [Stops, Holds]

theorem Slot.not_stops_iff {key : Bytes} {hash : UInt32} {slot : Slot} :
    ¬ slot.Stops key hash ↔ slot ≠ .empty ∧ ¬ slot.Holds key hash := by
  rw [stops_iff, not_or]

namespace Slots

variable {slots : Slots} {key : Bytes} {hash : UInt32} {index step : Nat}
  {entry : Entry}

/-- Of the slots that are met before this one none is empty and none holds
the key. -/
def Approaches (slots : Slots) (key : Bytes) (hash : UInt32) (index : Nat) :
    Prop :=
  ∀ earlier, Ring.Precedes slots.size hash earlier index →
    slots.get earlier ≠ .empty ∧ ¬ (slots.get earlier).Holds key hash

theorem approaches_walk_iff (hbinary : Ring.IsBinary slots.size)
    (hstep : step < slots.size) :
    slots.Approaches key hash (Ring.walk slots.size hash step) ↔
      ∀ earlier < step, ¬ (slots.visited hash earlier).Stops key hash := by
  unfold Approaches
  simp only [Ring.precedes_walk_iff hbinary hstep, ← Slot.not_stops_iff]
  constructor
  · intro hpasses earlier hlt
    exact hpasses _ ⟨earlier, hlt, rfl⟩
  · rintro hpasses _ ⟨earlier, hlt, rfl⟩
    exact hpasses earlier hlt

theorem firstStop_iff (hbinary : Ring.IsBinary slots.size) :
    slots.FirstStop key hash step ↔
      step < slots.size ∧ (slots.visited hash step).Stops key hash ∧
        slots.Approaches key hash (Ring.walk slots.size hash step) := by
  constructor
  · intro hfirst
    exact ⟨hfirst.lt_size, hfirst.stops,
      (approaches_walk_iff hbinary hfirst.lt_size).mpr hfirst.passes⟩
  · rintro ⟨hlt, hstops, happroach⟩
    exact ⟨hlt, hstops, (approaches_walk_iff hbinary hlt).mp happroach⟩

/-- The index of a slot tells the step at which a probe can end there. -/
theorem exists_firstStop_iff (hbinary : Ring.IsBinary slots.size) :
    (∃ step, slots.FirstStop key hash step ∧
        Ring.walk slots.size hash step = index) ↔
      index < slots.size ∧ (slots.get index).Stops key hash ∧
        slots.Approaches key hash index := by
  constructor
  · rintro ⟨step, hfirst, rfl⟩
    obtain ⟨-, hstops, happroach⟩ := (firstStop_iff hbinary).mp hfirst
    exact ⟨Ring.walk_lt hbinary hash step, hstops, happroach⟩
  · rintro ⟨hindex, hstops, happroach⟩
    obtain ⟨step, hstep, rfl⟩ := Ring.exists_walk_eq hbinary hash hindex
    exact ⟨step, (firstStop_iff hbinary).mpr ⟨hstep, hstops, happroach⟩, rfl⟩

theorem probe_eq_ok_iff {found : Landing} :
    slots.probe key hash = .ok found ↔
      ∃ step, slots.FirstStop key hash step ∧
        slots.landing (Ring.walk slots.size hash step) = found := by
  constructor
  · intro hfound
    rcases slots.firstStop_or_passes key hash with ⟨step, hfirst⟩ | hpasses
    · rw [probe_of_firstStop hfirst, Except.ok.injEq] at hfound
      exact ⟨step, hfirst, hfound⟩
    · rw [probe_of_forall_not_stops hpasses] at hfound
      exact nomatch hfound
  · rintro ⟨step, hfirst, rfl⟩
    exact probe_of_firstStop hfirst

theorem landing_eq_present_iff {found : Nat} :
    slots.landing found = .present index entry ↔
      found = index ∧ slots.get index = .occupied entry := by
  unfold landing
  constructor
  · intro hfound
    cases hslot : slots.get found with
    | occupied other =>
        rw [hslot] at hfound
        obtain ⟨rfl, rfl⟩ := Landing.present.inj hfound
        exact ⟨rfl, hslot⟩
    | empty => rw [hslot] at hfound; exact nomatch hfound
    | tombstone => rw [hslot] at hfound; exact nomatch hfound
  · rintro ⟨rfl, hslot⟩
    rw [hslot]

/-- A probe is not stopped by a tombstone, so a slot that stops it and holds
no entry is empty. -/
theorem landing_eq_absent_iff {found : Nat}
    (hstops : (slots.get found).Stops key hash) :
    slots.landing found = .absent index ↔
      found = index ∧ slots.get index = .empty := by
  unfold landing
  constructor
  · intro hfound
    cases hslot : slots.get found with
    | occupied other => rw [hslot] at hfound; exact nomatch hfound
    | empty =>
        rw [hslot] at hfound
        obtain rfl := Landing.absent.inj hfound
        exact ⟨rfl, hslot⟩
    | tombstone => rw [hslot] at hstops; exact hstops.elim
  · rintro ⟨rfl, hslot⟩
    rw [hslot]

theorem probe_eq_present_iff (hbinary : Ring.IsBinary slots.size) :
    slots.probe key hash = .ok (.present index entry) ↔
      slots.get index = .occupied entry ∧ entry.hash = hash ∧
        entry.key = key ∧ slots.Approaches key hash index := by
  simp only [probe_eq_ok_iff, landing_eq_present_iff]
  constructor
  · rintro ⟨step, hfirst, hwalk, hslot⟩
    obtain ⟨-, hstops, happroach⟩ :=
      (exists_firstStop_iff hbinary).mp ⟨step, hfirst, hwalk⟩
    rw [hslot, Slot.stops_occupied] at hstops
    exact ⟨hslot, hstops.1, hstops.2, happroach⟩
  · rintro ⟨hslot, hhash, hkey, happroach⟩
    have hstops : (slots.get index).Stops key hash := by
      rw [hslot]
      exact ⟨hhash, hkey⟩
    obtain ⟨step, hfirst, hwalk⟩ := (exists_firstStop_iff hbinary).mpr
      ⟨lt_size_of_occupied hslot, hstops, happroach⟩
    exact ⟨step, hfirst, hwalk, hslot⟩

theorem probe_eq_absent_iff (hbinary : Ring.IsBinary slots.size) :
    slots.probe key hash = .ok (.absent index) ↔
      index < slots.size ∧ slots.get index = .empty ∧
        slots.Approaches key hash index := by
  rw [probe_eq_ok_iff]
  constructor
  · rintro ⟨step, hfirst, hlanding⟩
    obtain ⟨hwalk, hslot⟩ :=
      (landing_eq_absent_iff hfirst.stops).mp hlanding
    obtain ⟨hindex, -, happroach⟩ :=
      (exists_firstStop_iff hbinary).mp ⟨step, hfirst, hwalk⟩
    exact ⟨hindex, hslot, happroach⟩
  · rintro ⟨hindex, hslot, happroach⟩
    have hstops : (slots.get index).Stops key hash := by
      rw [hslot]
      trivial
    obtain ⟨step, hfirst, hwalk⟩ :=
      (exists_firstStop_iff hbinary).mpr ⟨hindex, hstops, happroach⟩
    exact ⟨step, hfirst,
      (landing_eq_absent_iff hfirst.stops).mpr ⟨hwalk, hslot⟩⟩

theorem probe_eq_error_iff (hbinary : Ring.IsBinary slots.size)
    {fault : Fault} :
    slots.probe key hash = .error fault ↔
      fault = .probeExhausted slots.size ∧
        ∀ index < slots.size,
          slots.get index ≠ .empty ∧ ¬ (slots.get index).Holds key hash := by
  simp only [← Slot.not_stops_iff]
  constructor
  · intro hfault
    rcases slots.firstStop_or_passes key hash with ⟨step, hfirst⟩ | hpasses
    · rw [probe_of_firstStop hfirst] at hfault
      exact nomatch hfault
    · rw [probe_of_forall_not_stops hpasses, Except.error.injEq] at hfault
      refine ⟨hfault.symm, fun index hindex => ?_⟩
      obtain ⟨step, hstep, rfl⟩ := Ring.exists_walk_eq hbinary hash hindex
      exact hpasses step hstep
  · rintro ⟨rfl, hpasses⟩
    apply probe_of_forall_not_stops
    intro step _
    exact hpasses _ (Ring.walk_lt hbinary hash step)

/-! ## The search for a vacancy -/

theorem firstEmpty_of_absent
    (habsent : slots.probe key hash = .ok (.absent index)) :
    ∃ step, slots.FirstEmpty hash step ∧
      Ring.walk slots.size hash step = index := by
  obtain ⟨step, hfirst, hlanding⟩ := probe_eq_ok_iff.mp habsent
  obtain ⟨rfl, hslot⟩ := (landing_eq_absent_iff hfirst.stops).mp hlanding
  exact ⟨step, ⟨hfirst.lt_size, hslot, hfirst.passes_full⟩, rfl⟩

theorem vacancy_of_absent (hbinary : Ring.IsBinary slots.size)
    (habsent : slots.probe key hash = .ok (.absent index)) :
    slots.vacancy hash = .ok index := by
  obtain ⟨step, hfirst, rfl⟩ := firstEmpty_of_absent habsent
  exact vacancy_of_firstEmpty hbinary hfirst

/-! ## All outcomes -/

/-- What a probe finds in an array, and which slots it visits for that. -/
structure ProbesInTurn (slots : Slots) (key : Bytes) (hash : UInt32) :
    Prop where
  present_iff :
    ∀ index entry,
      slots.probe key hash = .ok (.present index entry) ↔
        slots.get index = .occupied entry ∧ entry.hash = hash ∧
          entry.key = key ∧ slots.Approaches key hash index
  absent_iff :
    ∀ index,
      slots.probe key hash = .ok (.absent index) ↔
        index < slots.size ∧ slots.get index = .empty ∧
          slots.Approaches key hash index
  exhausted_iff :
    ∀ fault,
      slots.probe key hash = .error fault ↔
        fault = .probeExhausted slots.size ∧
          ∀ index < slots.size,
            slots.get index ≠ .empty ∧ ¬ (slots.get index).Holds key hash
  exhaustive :
    (∃ index entry, slots.probe key hash = .ok (.present index entry)) ∨
      (∃ index, slots.probe key hash = .ok (.absent index)) ∨
      slots.probe key hash = .error (.probeExhausted slots.size)
  covers : (Ring.tour slots.size hash).Perm (List.range slots.size)
  visits :
    ∃ steps, slots.trail key hash =
      ((Ring.tour slots.size hash).take steps, slots.probe key hash)
  nodup_visits : (slots.trail key hash).1.Nodup
  vacancy_eq :
    ∀ index,
      slots.probe key hash = .ok (.absent index) →
        slots.vacancy hash = .ok index
  checked :
    slots.size < UInt64.size →
      Guarded.probe slots key hash =
          pure ((slots.probe key hash).map Landing.spot) ∧
        ∀ index,
          slots.probe key hash = .ok (.absent index) →
            Guarded.vacancy slots hash = pure index

theorem probesInTurn (hbinary : Ring.IsBinary slots.size) (key : Bytes)
    (hash : UInt32) : slots.ProbesInTurn key hash := by
  constructor
  · exact fun index entry => probe_eq_present_iff hbinary
  · exact fun index => probe_eq_absent_iff hbinary
  · exact fun fault => probe_eq_error_iff hbinary
  · rcases hprobe : slots.probe key hash with fault | ⟨index, entry⟩ | index
    · obtain ⟨rfl, -⟩ := (probe_eq_error_iff hbinary).mp hprobe
      exact Or.inr (Or.inr rfl)
    · exact Or.inl ⟨index, entry, rfl⟩
    · exact Or.inr (Or.inl ⟨index, rfl⟩)
  · exact Ring.tour_perm hbinary hash
  · obtain ⟨steps, hsteps, hvisits⟩ := slots.exists_trail_eq key hash
    refine ⟨steps, Prod.ext ?_ (trailFrom_snd _ _ _ _ _)⟩
    rw [hvisits, Ring.tour_eq_map_walk hbinary, ← List.map_take,
      List.take_range, Nat.min_eq_left hsteps]
  · obtain ⟨steps, hsteps, hvisits⟩ := slots.exists_trail_eq key hash
    rw [hvisits]
    exact Ring.nodup_map_walk hbinary hash hsteps
  · exact fun index => vacancy_of_absent hbinary
  · intro hword
    refine ⟨Guarded.probe_eq hbinary hword key hash, ?_⟩
    intro index habsent
    have hvacancy := vacancy_of_absent hbinary habsent
    exact (Guarded.vacancy_eq hbinary hword hvacancy).2

/-- One key three times, first under a hash of the same home that is not
asked for.  The walk to the second goes round the end of the array. -/
def disordered : Slots :=
  ⟨#[.occupied ⟨[9], none, 6⟩, .tombstone,
    .occupied ⟨[9], none, 4294967294⟩,
    .occupied ⟨[9], some [1], 4294967294⟩, .empty, .tombstone,
    .occupied ⟨[1], none, 4294967294⟩, .tombstone]⟩

theorem probesInTurn_disordered :
    Ring.tour 8 4294967294 = [6, 7, 0, 1, 2, 3, 4, 5] ∧
      disordered.probe [9] 4294967294 =
        .ok (.present 2 ⟨[9], none, 4294967294⟩) ∧
      disordered.probe [7] 4294967294 = .ok (.absent 4) ∧
      (disordered.put 4 .tombstone).probe [7] 4294967294 =
        .error (.probeExhausted 8) ∧
      Ring.IsBinary disordered.size ∧
      disordered.ProbesInTurn [9] 4294967294 := by
  have hbinary : Ring.IsBinary disordered.size := ⟨3, rfl⟩
  exact ⟨by decide, by decide, by decide, by decide, hbinary,
    probesInTurn hbinary [9] 4294967294⟩

end Slots

end LinearProbing
