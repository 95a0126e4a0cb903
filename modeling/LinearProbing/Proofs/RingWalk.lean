import LinearProbing.Ring
import Mathlib.Data.Nat.ModEq

/-!
# Walks round the ring

The walk of a hash visits its home slot, then the slot after it, and so on
round the ring.  On a ring of a power of two the walk visits every slot once
in its first `capacity` steps: two steps below the capacity never meet, and
every slot is met.  The displacement of a slot is the step at which the walk
reaches it.
-/

namespace LinearProbing.Ring

def walk (capacity : Nat) (hash : UInt32) (step : Nat) : Nat :=
  wrap capacity (home capacity hash + step)

/-- A ring that a mask can wrap. -/
def IsBinary (capacity : Nat) : Prop :=
  ∃ bits, capacity = 2 ^ bits

variable {capacity : Nat}

theorem IsBinary.pos (hbinary : IsBinary capacity) : 0 < capacity := by
  rcases hbinary with ⟨bits, rfl⟩
  exact Nat.two_pow_pos bits

theorem IsBinary.double (hbinary : IsBinary capacity) :
    IsBinary (2 * capacity) := by
  rcases hbinary with ⟨bits, rfl⟩
  exact ⟨bits + 1, by rw [Nat.pow_succ, Nat.mul_comm]⟩

theorem wrap_eq_mod (hbinary : IsBinary capacity) (position : Nat) :
    wrap capacity position = position % capacity := by
  rcases hbinary with ⟨bits, rfl⟩
  exact Nat.and_two_pow_sub_one_eq_mod position bits

theorem wrap_lt (hbinary : IsBinary capacity) (position : Nat) :
    wrap capacity position < capacity := by
  rw [wrap_eq_mod hbinary]
  exact Nat.mod_lt position hbinary.pos

theorem walk_eq_mod (hbinary : IsBinary capacity) (hash : UInt32)
    (step : Nat) :
    walk capacity hash step = (hash.toNat + step) % capacity := by
  rw [walk, home, wrap_eq_mod hbinary, wrap_eq_mod hbinary,
    Nat.mod_add_mod]

theorem walk_lt (hbinary : IsBinary capacity) (hash : UInt32) (step : Nat) :
    walk capacity hash step < capacity :=
  wrap_lt hbinary _

theorem home_eq_walk (hbinary : IsBinary capacity) (hash : UInt32) :
    home capacity hash = walk capacity hash 0 := by
  rw [walk_eq_mod hbinary, home, wrap_eq_mod hbinary, Nat.add_zero]

theorem after_walk (hbinary : IsBinary capacity) (hash : UInt32)
    (step : Nat) :
    after capacity (walk capacity hash step) =
      walk capacity hash (step + 1) := by
  rw [after, wrap_eq_mod hbinary, walk_eq_mod hbinary, walk_eq_mod hbinary,
    Nat.mod_add_mod, Nat.add_assoc]

theorem walk_injective (hbinary : IsBinary capacity) {hash : UInt32}
    {first second : Nat} (hfirst : first < capacity)
    (hsecond : second < capacity)
    (hmeet : walk capacity hash first = walk capacity hash second) :
    first = second := by
  rw [walk_eq_mod hbinary, walk_eq_mod hbinary] at hmeet
  have hmod : first ≡ second [MOD capacity] :=
    Nat.ModEq.add_left_cancel' hash.toNat hmeet
  exact hmod.eq_of_lt_of_lt hfirst hsecond

theorem exists_walk_eq (hbinary : IsBinary capacity) (hash : UInt32)
    {index : Nat} (hindex : index < capacity) :
    ∃ step < capacity, walk capacity hash step = index := by
  have hhome : hash.toNat % capacity < capacity :=
    Nat.mod_lt _ hbinary.pos
  refine ⟨(index + (capacity - hash.toNat % capacity)) % capacity,
    Nat.mod_lt _ hbinary.pos, ?_⟩
  rw [walk_eq_mod hbinary, Nat.add_mod_mod, ← Nat.mod_add_mod]
  have hround :
      hash.toNat % capacity + (index + (capacity - hash.toNat % capacity)) =
        index + capacity := by omega
  rw [hround, Nat.add_mod_right, Nat.mod_eq_of_lt hindex]

/-- Two walks that stand on one slot go on together. -/
theorem walk_add_eq (hbinary : IsBinary capacity) {first second : UInt32}
    {left right : Nat}
    (hmeet : walk capacity first left = walk capacity second right)
    (more : Nat) :
    walk capacity first (left + more) =
      walk capacity second (right + more) := by
  rw [walk_eq_mod hbinary, walk_eq_mod hbinary] at hmeet ⊢
  rw [← Nat.add_assoc, ← Nat.add_assoc, ← Nat.mod_add_mod, hmeet,
    Nat.mod_add_mod]

theorem dvd_wordSize (hbinary : IsBinary capacity)
    (hword : capacity ≤ UInt64.size) : capacity ∣ UInt64.size := by
  rcases hbinary with ⟨bits, rfl⟩
  have hsize : UInt64.size = 2 ^ 64 := rfl
  rw [hsize] at hword ⊢
  exact Nat.pow_dvd_pow 2 ((Nat.pow_le_pow_iff_right (by omega)).mp hword)

theorem displacement_walk (hbinary : IsBinary capacity)
    (hword : capacity ≤ UInt64.size) (hash : UInt32) {step : Nat}
    (hstep : step < capacity) :
    displacement capacity (walk capacity hash step) hash = step := by
  have hhash : hash.toNat < UInt64.size :=
    hash.toNat_lt.trans (by decide)
  obtain ⟨turns, hturns⟩ := dvd_wordSize hbinary hword
  rw [displacement, wrap_eq_mod hbinary, walk_eq_mod hbinary,
    Nat.mod_add_mod]
  have hround :
      hash.toNat + step + (UInt64.size - hash.toNat) =
        step + capacity * turns := by omega
  rw [hround, Nat.add_mul_mod_self_left, Nat.mod_eq_of_lt hstep]

end LinearProbing.Ring
