import LinearProbing.Proofs.Placement
import Mathlib.Data.List.Perm.Subperm

/-!
# The trail of a probe

A probe says where it ends and not how far it went.  `trail` is the same
probe and notes each slot that it examines.

If the probe ends at the `n`-th step of its walk, the trail is the walk up to
there (`FirstStop.trail_eq`), and an exhausted probe has gone once round the
ring (`exists_trail_eq`).  The slots before the end are in use, and no
two steps of the walk meet.  So there are no more of them than slots in use,
and one less if the last one is in use as well (`le_tallies`).
-/

namespace LinearProbing

def Slot.isFull (slot : Slot) : Bool :=
  !slot.isEmpty

theorem Slot.isFull_iff {slot : Slot} :
    slot.isFull = true ↔ slot ≠ .empty := by
  cases slot <;> simp [isFull, isEmpty]

/-- No two of the first `capacity` steps of a walk meet. -/
theorem Ring.nodup_map_walk {capacity steps : Nat}
    (hbinary : IsBinary capacity) (hash : UInt32)
    (hsteps : steps ≤ capacity) :
    ((List.range steps).map (walk capacity hash)).Nodup := by
  apply List.nodup_range.map_on
  intro first hfirst second hsecond hmeet
  rw [List.mem_range] at hfirst hsecond
  exact walk_injective hbinary (by omega) (by omega) hmeet

namespace Slots

variable {slots : Slots} {key : Bytes} {hash : UInt32}
  {index step start left : Nat} {entry : Entry}

/-- The slots that a probe examines, and where it ends. -/
def trailFrom (slots : Slots) (key : Bytes) (hash : UInt32) :
    Nat → Nat → List Nat × Except Fault Landing
  | _, 0 => ([], .error (.probeExhausted slots.size))
  | step, left + 1 =>
      let index :=
        Ring.wrap slots.size (Ring.home slots.size hash + step)
      match slots.get index with
      | .empty => ([index], .ok (.absent index))
      | .tombstone =>
          (slots.trailFrom key hash (step + 1) left).map (index :: ·) id
      | .occupied entry =>
          if entry.hash = hash ∧ entry.key = key then
            ([index], .ok (.present index entry))
          else
            (slots.trailFrom key hash (step + 1) left).map (index :: ·) id

def trail (slots : Slots) (key : Bytes) (hash : UInt32) :
    List Nat × Except Fault Landing :=
  slots.trailFrom key hash 0 slots.size

/-! ## What the trail notes -/

theorem trailFrom_snd (slots : Slots) (key : Bytes) (hash : UInt32)
    (step left : Nat) :
    (slots.trailFrom key hash step left).2 =
      slots.probeFrom key hash step left := by
  induction left generalizing step with
  | zero => rfl
  | succ left ih =>
      rw [trailFrom, probeFrom]
      cases slots.get
          (Ring.wrap slots.size (Ring.home slots.size hash + step)) with
      | empty => rfl
      | tombstone => exact ih (step + 1)
      | occupied entry =>
          by_cases hfound : entry.hash = hash ∧ entry.key = key
          · simp only [if_pos hfound]
          · simp only [if_neg hfound]
            exact ih (step + 1)

theorem trailFrom_succ_of_stops
    (hstops : (slots.visited hash step).Stops key hash) (left : Nat) :
    (slots.trailFrom key hash step (left + 1)).1 =
      [Ring.walk slots.size hash step] := by
  unfold visited Ring.walk at hstops
  rw [trailFrom, Ring.walk]
  cases hslot : slots.get
      (Ring.wrap slots.size (Ring.home slots.size hash + step)) with
  | empty => rfl
  | tombstone =>
      rw [hslot] at hstops
      exact hstops.elim
  | occupied entry =>
      rw [hslot, Slot.stops_occupied] at hstops
      simp only [if_pos hstops]

theorem trailFrom_succ_of_not_stops
    (hpasses : ¬ (slots.visited hash step).Stops key hash) (left : Nat) :
    (slots.trailFrom key hash step (left + 1)).1 =
      Ring.walk slots.size hash step ::
        (slots.trailFrom key hash (step + 1) left).1 := by
  unfold visited Ring.walk at hpasses
  rw [trailFrom, Ring.walk]
  cases hslot : slots.get
      (Ring.wrap slots.size (Ring.home slots.size hash + step)) with
  | empty =>
      rw [hslot] at hpasses
      exact (hpasses trivial).elim
  | tombstone => rfl
  | occupied entry =>
      rw [hslot, Slot.stops_occupied] at hpasses
      simp only [if_neg hpasses]
      rfl

theorem trailFrom_of_stops {more : Nat} (hleft : more < left)
    (hstops : (slots.visited hash (start + more)).Stops key hash)
    (hpasses : ∀ earlier < more,
      ¬ (slots.visited hash (start + earlier)).Stops key hash) :
    (slots.trailFrom key hash start left).1 =
      (List.range' start (more + 1)).map (Ring.walk slots.size hash) := by
  induction more generalizing start left with
  | zero =>
      obtain ⟨left, rfl⟩ := Nat.exists_eq_add_one.mpr hleft
      exact trailFrom_succ_of_stops hstops left
  | succ more ih =>
      obtain ⟨left, rfl⟩ :=
        Nat.exists_eq_add_one.mpr (Nat.zero_lt_of_lt hleft)
      have hshift : ∀ later, start + 1 + later = start + (later + 1) := by
        omega
      have hrest :
          (slots.trailFrom key hash (start + 1) left).1 =
            (List.range' (start + 1) (more + 1)).map
              (Ring.walk slots.size hash) := by
        apply ih (by omega)
        · rwa [hshift]
        · intro earlier hlt
          rw [hshift]
          exact hpasses (earlier + 1) (by omega)
      have hpass := hpasses 0 (by omega)
      rw [Nat.add_zero] at hpass
      rw [List.range'_succ, List.map_cons,
        trailFrom_succ_of_not_stops hpass, hrest]

theorem trailFrom_of_forall_not_stops
    (hpasses : ∀ earlier < left,
      ¬ (slots.visited hash (start + earlier)).Stops key hash) :
    (slots.trailFrom key hash start left).1 =
      (List.range' start left).map (Ring.walk slots.size hash) := by
  induction left generalizing start with
  | zero => rfl
  | succ left ih =>
      have hpass := hpasses 0 (by omega)
      have hrest : ∀ earlier < left,
          ¬ (slots.visited hash (start + 1 + earlier)).Stops key hash := by
        intro earlier hlt
        rw [Nat.add_assoc, Nat.add_comm 1 earlier]
        exact hpasses (earlier + 1) (by omega)
      rw [Nat.add_zero] at hpass
      rw [trailFrom_succ_of_not_stops hpass, ih hrest, List.range'_succ,
        List.map_cons]

theorem FirstStop.trail_eq (hfirst : slots.FirstStop key hash step) :
    slots.trail key hash =
      ((List.range (step + 1)).map (Ring.walk slots.size hash),
        .ok (slots.landing (Ring.walk slots.size hash step))) := by
  apply Prod.ext
  · rw [List.range_eq_range']
    apply trailFrom_of_stops hfirst.lt_size
    · rw [Nat.zero_add]
      exact hfirst.stops
    · intro earlier hlt
      rw [Nat.zero_add]
      exact hfirst.passes earlier hlt
  · exact (trailFrom_snd _ _ _ _ _).trans (probe_of_firstStop hfirst)

/-- Where the first empty slot is met, a probe has ended, for whichever
key. -/
theorem FirstEmpty.exists_firstStop (hfirst : slots.FirstEmpty hash step)
    (key : Bytes) : ∃ earlier, slots.FirstStop key hash earlier := by
  rcases slots.firstStop_or_passes key hash with hstop | hpasses
  · exact hstop
  · refine absurd ?_ (hpasses step hfirst.lt_size)
    rw [hfirst.empty]
    trivial

/-- However a probe ends, it has visited the first slots of its walk. -/
theorem exists_trail_eq (slots : Slots) (key : Bytes) (hash : UInt32) :
    ∃ steps ≤ slots.size, (slots.trail key hash).1 =
      (List.range steps).map (Ring.walk slots.size hash) := by
  rcases slots.firstStop_or_passes key hash with ⟨step, hfirst⟩ | hpasses
  · exact ⟨step + 1, hfirst.lt_size, by rw [hfirst.trail_eq]⟩
  · refine ⟨slots.size, Nat.le_refl _, ?_⟩
    rw [List.range_eq_range']
    apply trailFrom_of_forall_not_stops
    intro earlier hlt
    rw [Nat.zero_add]
    exact hpasses earlier hlt

/-! ## How long a trail can be -/

theorem toList_eq_map_range (slots : Slots) :
    slots.toList = (List.range slots.size).map slots.get := by
  apply List.ext_getElem
  · simp
  · intro index hindex _
    rw [getElem_toList, List.getElem_map, List.getElem_range]

theorem length_le_tally {indices : List Nat} (hnodup : indices.Nodup)
    {kind : Slot → Bool}
    (hkind : ∀ index ∈ indices,
      index < slots.size ∧ kind (slots.get index) = true) :
    indices.length ≤ slots.tally kind := by
  have hsubset : indices ⊆
      (List.range slots.size).filter (kind ∘ slots.get) := by
    intro index hmem
    rw [List.mem_filter, List.mem_range]
    exact hkind index hmem
  rw [tally, toList_eq_map_range, List.countP_map,
    List.countP_eq_length_filter]
  exact (hnodup.subperm hsubset).length_le

/-- The slots in use. -/
theorem tally_isFull (slots : Slots) :
    slots.tally Slot.isFull =
      slots.tally Slot.isOccupied + slots.tally Slot.isTombstone := by
  unfold tally
  induction slots.toList with
  | nil => rfl
  | cons slot rest ih =>
      cases slot <;>
        simp [List.countP_cons, Slot.isFull, Slot.isEmpty, Slot.isOccupied,
          Slot.isTombstone] <;> omega

theorem le_tallies (hbinary : Ring.IsBinary slots.size) {steps : Nat}
    (hsteps : steps ≤ slots.size)
    (hfull : ∀ step < steps, slots.visited hash step ≠ .empty) :
    steps ≤ slots.tally Slot.isOccupied + slots.tally Slot.isTombstone := by
  have hnodup := Ring.nodup_map_walk hbinary hash hsteps
  have hkind : ∀ index ∈ (List.range steps).map (Ring.walk slots.size hash),
      index < slots.size ∧ (slots.get index).isFull = true := by
    intro index hmem
    obtain ⟨step, hstep, rfl⟩ := List.mem_map.mp hmem
    have hslot := hfull step (List.mem_range.mp hstep)
    exact ⟨Ring.walk_lt hbinary hash step, Slot.isFull_iff.mpr hslot⟩
  have hlength := length_le_tally hnodup hkind
  rwa [List.length_map, List.length_range, tally_isFull] at hlength

theorem FirstStop.passes_full (hfirst : slots.FirstStop key hash step) :
    ∀ earlier < step, slots.visited hash earlier ≠ .empty := by
  intro earlier hlt hempty
  apply hfirst.passes earlier hlt
  rw [hempty]
  trivial

theorem FirstStop.le_tallies (hbinary : Ring.IsBinary slots.size)
    (hfirst : slots.FirstStop key hash step) :
    step ≤ slots.tally Slot.isOccupied + slots.tally Slot.isTombstone :=
  Slots.le_tallies hbinary (Nat.le_of_lt hfirst.lt_size) hfirst.passes_full

theorem FirstStop.lt_tallies (hbinary : Ring.IsBinary slots.size)
    (hfirst : slots.FirstStop key hash step)
    (hlast : slots.visited hash step ≠ .empty) :
    step < slots.tally Slot.isOccupied + slots.tally Slot.isTombstone := by
  have hfull : ∀ earlier < step + 1, slots.visited hash earlier ≠ .empty := by
    intro earlier hlt
    rcases Nat.lt_succ_iff_lt_or_eq.mp hlt with hpassed | rfl
    · exact hfirst.passes_full earlier hpassed
    · exact hlast
  exact Slots.le_tallies hbinary hfirst.lt_size hfull

end Slots

end LinearProbing
