import LinearProbing.Probe
import LinearProbing.Proofs.RingWalk
import LinearProbing.Proofs.SlotEntries
import Mathlib.Data.Nat.Find

/-!
# Where a probe ends

A probe for a key ends at the first slot of its walk that is empty or holds
the key, and a search for a vacancy at the first slot that is empty.  Both
are errors only if the first `size` steps of the walk meet no such slot
(`probe_of_firstStop`, `probe_of_forall_not_stops`, `vacancy_of_firstEmpty`).
With an empty slot anywhere in the array both searches end.
-/

namespace LinearProbing

/-- A probe does not step over such a slot. -/
def Slot.Stops (key : Bytes) (hash : UInt32) : Slot → Prop
  | .empty => True
  | .tombstone => False
  | .occupied entry => entry.hash = hash ∧ entry.key = key

theorem Slot.stops_occupied {key : Bytes} {hash : UInt32} {entry : Entry} :
    (Slot.occupied entry).Stops key hash ↔
      entry.hash = hash ∧ entry.key = key :=
  Iff.rfl

namespace Slots

variable {slots : Slots} {key : Bytes} {hash : UInt32} {step : Nat}

/-- The slot that the walk of a hash visits at a step. -/
def visited (slots : Slots) (hash : UInt32) (step : Nat) : Slot :=
  slots.get (Ring.walk slots.size hash step)

structure FirstStop (slots : Slots) (key : Bytes) (hash : UInt32)
    (step : Nat) : Prop where
  lt_size : step < slots.size
  stops : (slots.visited hash step).Stops key hash
  passes : ∀ earlier < step, ¬ (slots.visited hash earlier).Stops key hash

structure FirstEmpty (slots : Slots) (hash : UInt32) (step : Nat) : Prop where
  lt_size : step < slots.size
  empty : slots.visited hash step = .empty
  passes : ∀ earlier < step, slots.visited hash earlier ≠ .empty

/-- Of the steps below a bound that have a property one is the first. -/
theorem exists_first_step {bound : Nat} {property : Nat → Prop}
    (hexists : ∃ step < bound, property step) :
    ∃ step < bound, property step ∧ ∀ earlier < step, ¬ property earlier := by
  classical
  obtain ⟨hlt, hproperty⟩ := Nat.find_spec hexists
  exact ⟨Nat.find hexists, hlt, hproperty, fun earlier hearlier hbefore =>
    Nat.find_min hexists hearlier ⟨hearlier.trans hlt, hbefore⟩⟩

theorem firstStop_or_passes (slots : Slots) (key : Bytes) (hash : UInt32) :
    (∃ step, slots.FirstStop key hash step) ∨
      ∀ step < slots.size, ¬ (slots.visited hash step).Stops key hash := by
  by_cases hexists :
      ∃ step < slots.size, (slots.visited hash step).Stops key hash
  · obtain ⟨step, hlt, hstops, hpasses⟩ := exists_first_step hexists
    exact Or.inl ⟨step, hlt, hstops, hpasses⟩
  · exact Or.inr fun step hlt hstops => hexists ⟨step, hlt, hstops⟩

/-- What a probe reports about the slot at which it ends. -/
def landing (slots : Slots) (index : Nat) : Landing :=
  match slots.get index with
  | .occupied entry => .present index entry
  | .empty | .tombstone => .absent index

/-! ## Probing for a key -/

theorem probeFrom_succ_of_stops
    (hstops : (slots.visited hash step).Stops key hash) (left : Nat) :
    slots.probeFrom key hash step (left + 1) =
      .ok (slots.landing (Ring.walk slots.size hash step)) := by
  unfold visited Ring.walk at hstops
  rw [probeFrom, landing, Ring.walk]
  cases hslot : slots.get
      (Ring.wrap slots.size (Ring.home slots.size hash + step)) with
  | empty => rfl
  | tombstone =>
      rw [hslot] at hstops
      exact hstops.elim
  | occupied entry =>
      rw [hslot, Slot.stops_occupied] at hstops
      exact if_pos hstops

theorem probeFrom_succ_of_not_stops
    (hpasses : ¬ (slots.visited hash step).Stops key hash) (left : Nat) :
    slots.probeFrom key hash step (left + 1) =
      slots.probeFrom key hash (step + 1) left := by
  unfold visited Ring.walk at hpasses
  rw [probeFrom]
  cases hslot : slots.get
      (Ring.wrap slots.size (Ring.home slots.size hash + step)) with
  | empty =>
      rw [hslot] at hpasses
      exact (hpasses trivial).elim
  | tombstone => rfl
  | occupied entry =>
      rw [hslot, Slot.stops_occupied] at hpasses
      exact if_neg hpasses

theorem probeFrom_of_stops {start left : Nat} (hstart : start ≤ step)
    (hleft : step < start + left)
    (hstops : (slots.visited hash step).Stops key hash)
    (hpasses : ∀ earlier, start ≤ earlier → earlier < step →
      ¬ (slots.visited hash earlier).Stops key hash) :
    slots.probeFrom key hash start left =
      .ok (slots.landing (Ring.walk slots.size hash step)) := by
  induction left generalizing start with
  | zero => omega
  | succ left ih =>
      by_cases heq : start = step
      · subst heq
        exact probeFrom_succ_of_stops hstops left
      · rw [probeFrom_succ_of_not_stops
          (hpasses start (Nat.le_refl start) (by omega))]
        exact ih (by omega) (by omega) fun earlier hfrom =>
          hpasses earlier (by omega)

theorem probeFrom_of_forall_not_stops {start left : Nat}
    (hpasses : ∀ earlier, start ≤ earlier → earlier < start + left →
      ¬ (slots.visited hash earlier).Stops key hash) :
    slots.probeFrom key hash start left =
      .error (.probeExhausted slots.size) := by
  induction left generalizing start with
  | zero => rfl
  | succ left ih =>
      rw [probeFrom_succ_of_not_stops
        (hpasses start (Nat.le_refl start) (by omega))]
      exact ih fun earlier hfrom hto =>
        hpasses earlier (by omega) (by omega)

theorem probe_of_firstStop (hfirst : slots.FirstStop key hash step) :
    slots.probe key hash =
      .ok (slots.landing (Ring.walk slots.size hash step)) :=
  probeFrom_of_stops (Nat.zero_le step) (by simpa using hfirst.lt_size)
    hfirst.stops fun earlier _ hlt => hfirst.passes earlier hlt

theorem probe_of_forall_not_stops
    (hpasses : ∀ step < slots.size,
      ¬ (slots.visited hash step).Stops key hash) :
    slots.probe key hash = .error (.probeExhausted slots.size) :=
  probeFrom_of_forall_not_stops fun step _ hlt =>
    hpasses step (by simpa using hlt)

/-! ## Searching for a vacancy -/

theorem vacancyFrom_of_empty (hbinary : Ring.IsBinary slots.size)
    {start left : Nat} (hstart : start ≤ step) (hleft : step < start + left)
    (hempty : slots.visited hash step = .empty)
    (hpasses : ∀ earlier, start ≤ earlier → earlier < step →
      slots.visited hash earlier ≠ .empty) :
    slots.vacancyFrom (Ring.walk slots.size hash start) left =
      .ok (Ring.walk slots.size hash step) := by
  induction left generalizing start with
  | zero => omega
  | succ left ih =>
      rw [vacancyFrom]
      by_cases heq : start = step
      · subst heq
        unfold visited at hempty
        rw [hempty]
      · have hpass := hpasses start (Nat.le_refl start) (by omega)
        have hrest :
            slots.vacancyFrom (Ring.walk slots.size hash (start + 1)) left =
              .ok (Ring.walk slots.size hash step) :=
          ih (by omega) (by omega) fun earlier hfrom =>
            hpasses earlier (by omega)
        rw [Ring.after_walk hbinary]
        unfold visited at hpass
        cases hslot : slots.get (Ring.walk slots.size hash start) with
        | empty => exact absurd hslot hpass
        | tombstone => exact hrest
        | occupied entry => exact hrest

theorem vacancy_of_firstEmpty (hbinary : Ring.IsBinary slots.size)
    (hfirst : slots.FirstEmpty hash step) :
    slots.vacancy hash = .ok (Ring.walk slots.size hash step) := by
  unfold vacancy
  rw [Ring.home_eq_walk hbinary]
  exact vacancyFrom_of_empty hbinary (Nat.zero_le step)
    (by simpa using hfirst.lt_size) hfirst.empty
    fun earlier _ hlt => hfirst.passes earlier hlt

theorem exists_firstEmpty (hbinary : Ring.IsBinary slots.size)
    (hempty : ∃ index < slots.size, slots.get index = .empty)
    (hash : UInt32) : ∃ step, slots.FirstEmpty hash step := by
  rcases hempty with ⟨index, hindex, hslot⟩
  obtain ⟨step, hstep, hwalk⟩ := Ring.exists_walk_eq hbinary hash hindex
  have hexists : ∃ step < slots.size, slots.visited hash step = .empty :=
    ⟨step, hstep, by rw [visited, hwalk, hslot]⟩
  obtain ⟨first, hlt, hfirst, hpasses⟩ := exists_first_step hexists
  exact ⟨first, hlt, hfirst, hpasses⟩

/-- A walk that passes no entry of the key stops where it finds room. -/
theorem FirstEmpty.firstStop (hfirst : slots.FirstEmpty hash step)
    (habsent : ∀ earlier < step, ∀ entry,
      slots.visited hash earlier = .occupied entry → entry.key ≠ key) :
    slots.FirstStop key hash step where
  lt_size := hfirst.lt_size
  stops := by rw [hfirst.empty]; trivial
  passes := by
    intro earlier hlt hstops
    have hfull := hfirst.passes earlier hlt
    cases hslot : slots.visited hash earlier with
    | empty => exact hfull hslot
    | tombstone => rw [hslot] at hstops; exact hstops
    | occupied entry =>
        rw [hslot] at hstops
        exact habsent earlier hlt entry hslot hstops.2

theorem settle_of_firstEmpty (hbinary : Ring.IsBinary slots.size)
    {entry : Entry} (hfirst : slots.FirstEmpty entry.hash step) :
    slots.settle entry =
      .ok (slots.put (Ring.walk slots.size entry.hash step)
        (.occupied entry)) := by
  unfold settle
  rw [vacancy_of_firstEmpty hbinary hfirst]

end Slots

end LinearProbing
