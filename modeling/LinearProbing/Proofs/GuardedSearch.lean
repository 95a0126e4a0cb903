import LinearProbing.Proofs.CapacityFit
import LinearProbing.Proofs.Guarded
import LinearProbing.Proofs.ProbeWalk

/-!
# Guarded searches

The two searches of a slot array and the search for a capacity, with their
checks.  A guarded search for a key ends at the index of a slot alone, and
whoever asked for it has to read the slot.  The search for a vacancy and the
doubling of a capacity are loops without a bound.

The guarded searches of an array agree with the plain ones on every array
whose size is a power of two and a machine word, whatever it holds, and
doubling ends from every positive capacity.
-/

namespace LinearProbing

/-- Where a walk for a key ends, before the slot there is read. -/
inductive Spot
  | found (index : Nat)
  | vacant (index : Nat)
deriving DecidableEq

def Landing.spot : Landing → Spot
  | .present index _ => .found index
  | .absent index => .vacant index

namespace Guarded

def probeFrom (slots : Slots) (key : Bytes) (hash : UInt32)
    (mask start : Nat) : Nat → Nat → Guarded (Except Fault Spot)
  | _, 0 => pure (.error (.probeExhausted slots.size))
  | step, left + 1 => do
      let position ← add start step
      let index := position &&& mask
      match ← readSlot slots index with
      | .empty => pure (.ok (.vacant index))
      | .tombstone => probeFrom slots key hash mask start (step + 1) left
      | .occupied entry =>
          if entry.hash = hash ∧ entry.key = key then
            pure (.ok (.found index))
          else
            probeFrom slots key hash mask start (step + 1) left

def probe (slots : Slots) (key : Bytes) (hash : UInt32) :
    Guarded (Except Fault Spot) := do
  demand slots.size.isPowerOfTwo
  let mask ← sub slots.size 1
  probeFrom slots key hash mask (hash.toNat &&& mask) 0 slots.size

def vacancyTurn (slots : Slots) (mask index : Nat) :
    Guarded (Turn Nat Nat) := do
  match ← readSlot slots index with
  | .empty => pure (.done index)
  | .occupied _ | .tombstone =>
      let next ← add index 1
      pure (.again (next &&& mask))

/-- Goes on until a slot is empty, however often round the ring. -/
noncomputable def vacancy (slots : Slots) (hash : UInt32) :
    Guarded Nat := do
  let mask ← sub slots.size 1
  loop (vacancyTurn slots mask) (hash.toNat &&& mask)

def fitTurn (used capacity : Nat) : Guarded (Turn Nat (Except Fault Nat)) :=
  if Capacity.Admits capacity used then
    pure (.done (.ok capacity))
  else if 2 * capacity < UInt64.size then
    pure (.again (2 * capacity))
  else
    pure (.done (.error .capacityOverflow))

/-- Doubles until the slots in use are admitted or a word is too short. -/
noncomputable def fit (capacity used : Nat) : Guarded (Except Fault Nat) :=
  loop (fitTurn used) capacity

end Guarded

theorem Ring.IsBinary.double_le_wordSize {capacity : Nat}
    (hbinary : IsBinary capacity) (hword : capacity < UInt64.size) :
    2 * capacity ≤ UInt64.size := by
  obtain ⟨turns, hturns⟩ := dvd_wordSize hbinary hword.le
  have hpos := hbinary.pos
  have hturn : 2 ≤ turns := by
    by_contra hfew
    have hcases : turns = 0 ∨ turns = 1 := by omega
    rcases hcases with rfl | rfl <;> omega
  calc
    2 * capacity ≤ turns * capacity := Nat.mul_le_mul_right capacity hturn
    _ = UInt64.size := by rw [hturns, Nat.mul_comm]

namespace Guarded

variable {slots : Slots} {key : Bytes} {hash : UInt32} {index : Nat}

/-! ## Probing for a key -/

theorem probeFrom_eq (hbinary : Ring.IsBinary slots.size)
    (hword : slots.size < UInt64.size) {step left : Nat}
    (hsteps : step + left ≤ slots.size) :
    probeFrom slots key hash (slots.size - 1)
        (Ring.home slots.size hash) step left =
      pure ((slots.probeFrom key hash step left).map Landing.spot) := by
  induction left generalizing step with
  | zero => rfl
  | succ left ih =>
      have hhome : Ring.home slots.size hash < slots.size :=
        Ring.wrap_lt hbinary _
      have hposition : Ring.home slots.size hash + step < UInt64.size := by
        have hdouble := hbinary.double_le_wordSize hword
        omega
      have hindex :
          Ring.home slots.size hash + step &&& slots.size - 1 < slots.size :=
        Ring.wrap_lt hbinary _
      have hnext : step + 1 + left ≤ slots.size := by omega
      have hrest := ih hnext
      rw [probeFrom, Slots.probeFrom, add_eq hposition, pure_bind]
      dsimp only [Ring.wrap]
      rw [readSlot_eq hindex, pure_bind]
      cases slots.get (Ring.home slots.size hash + step &&& slots.size - 1)
        with
      | empty => rfl
      | tombstone => exact hrest
      | occupied entry =>
          by_cases hmatch : entry.hash = hash ∧ entry.key = key
          · simp only [if_pos hmatch]
            rfl
          · simp only [if_neg hmatch]
            exact hrest

theorem probe_eq (hbinary : Ring.IsBinary slots.size)
    (hword : slots.size < UInt64.size) (key : Bytes) (hash : UInt32) :
    probe slots key hash =
      pure ((slots.probe key hash).map Landing.spot) := by
  have hpower : slots.size.isPowerOfTwo := hbinary
  unfold probe
  rw [demand_eq hpower, pure_bind, sub_eq hbinary.pos, pure_bind]
  exact probeFrom_eq hbinary hword (by omega)

/-! ## Searching for a vacancy -/

theorem vacancyLoop_eq (hbinary : Ring.IsBinary slots.size)
    (hword : slots.size < UInt64.size) {start left : Nat}
    (hstart : start < slots.size)
    (hfound : slots.vacancyFrom start left = .ok index) :
    index < slots.size ∧
      loop (vacancyTurn slots (slots.size - 1)) start = pure index := by
  induction left generalizing start with
  | zero => simp [Slots.vacancyFrom] at hfound
  | succ left ih =>
      have hnext : start + 1 < UInt64.size := by omega
      have hread : vacancyTurn slots (slots.size - 1) start =
          match slots.get start with
          | .empty => pure (.done start)
          | .occupied _ | .tombstone =>
              pure (.again (Ring.after slots.size start)) := by
        rw [vacancyTurn, readSlot_eq hstart, pure_bind, add_eq hnext]
        rfl
      have hgo (hagain : vacancyTurn slots (slots.size - 1) start =
            pure (.again (Ring.after slots.size start)))
          (hrest : slots.vacancyFrom (Ring.after slots.size start) left =
            .ok index) :
          index < slots.size ∧
            loop (vacancyTurn slots (slots.size - 1)) start =
              pure index := by
        rw [loop_of_again hagain]
        exact ih (Ring.wrap_lt hbinary _) hrest
      rw [Slots.vacancyFrom] at hfound
      cases hslot : slots.get start with
      | empty =>
          rw [hslot] at hread hfound
          rw [Except.ok.injEq] at hfound
          exact hfound ▸ ⟨hstart, loop_of_done hread⟩
      | tombstone =>
          rw [hslot] at hread hfound
          exact hgo hread hfound
      | occupied entry =>
          rw [hslot] at hread hfound
          exact hgo hread hfound

theorem vacancy_eq (hbinary : Ring.IsBinary slots.size)
    (hword : slots.size < UInt64.size)
    (hfound : slots.vacancy hash = .ok index) :
    index < slots.size ∧ vacancy slots hash = pure index := by
  unfold vacancy
  rw [sub_eq hbinary.pos, pure_bind]
  exact vacancyLoop_eq hbinary hword (Ring.wrap_lt hbinary _) hfound

/-! ## Doubling a capacity -/

theorem fitLoop_eq {tries capacity used : Nat}
    (htries : UInt64.size ≤ 2 ^ (tries + 1) * capacity) :
    loop (fitTurn used) capacity =
      pure (Capacity.fitWithin (tries + 1) capacity used) := by
  induction tries generalizing capacity with
  | zero =>
      have hfull : ¬ 2 * capacity < UInt64.size := by omega
      apply loop_of_done
      rw [fitTurn, Capacity.fitWithin, if_neg hfull, if_neg hfull]
      by_cases hadmits : Capacity.Admits capacity used
      · rw [if_pos hadmits, if_pos hadmits]
      · rw [if_neg hadmits, if_neg hadmits]
  | succ tries ih =>
      rw [Capacity.fitWithin]
      by_cases hadmits : Capacity.Admits capacity used
      · apply loop_of_done
        rw [fitTurn, if_pos hadmits, if_pos hadmits]
      · rw [if_neg hadmits]
        by_cases hword : 2 * capacity < UInt64.size
        · have hmore : UInt64.size ≤ 2 ^ (tries + 1) * (2 * capacity) := by
            rwa [← Nat.mul_assoc, ← Nat.pow_succ]
          have hagain : fitTurn used capacity =
              pure (.again (2 * capacity)) := by
            rw [fitTurn, if_neg hadmits, if_pos hword]
          rw [if_pos hword, loop_of_again hagain, ih hmore]
        · apply loop_of_done
          rw [fitTurn, if_neg hadmits, if_neg hword, if_neg hword]

theorem fit_eq {capacity : Nat} (hpos : 0 < capacity) (used : Nat) :
    fit capacity used = pure (Capacity.fit capacity used) :=
  fitLoop_eq (Nat.le_mul_of_pos_right (2 ^ 64) hpos)

end Guarded

end LinearProbing
