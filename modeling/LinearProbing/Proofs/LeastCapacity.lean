import LinearProbing.Proofs.CapacityFit
import Mathlib.Order.Bounds.Basic
import Mathlib.Order.Nat

/-!
# The least capacity that serves

A fit is the least power of two, from the old capacity on, that admits the
slots in use, and it is refused exactly if that power is too large for a
machine word (`fit_eq_ok_iff`).  Fitting the least capacity again, for more
slots in use, gives what fitting for them in the first place would have given
(`isLeast_refit`), so it does not matter in how many doublings a capacity was
reached.
-/

namespace LinearProbing

theorem Ring.IsBinary.double_le {capacity other : Nat}
    (hbinary : IsBinary capacity) (hother : IsBinary other)
    (hlt : capacity < other) : 2 * capacity ≤ other := by
  rcases hbinary with ⟨bits, rfl⟩
  rcases hother with ⟨more, rfl⟩
  have hbits : bits < more := (Nat.pow_lt_pow_iff_right (by omega)).mp hlt
  calc
    2 * 2 ^ bits = 2 ^ (bits + 1) := by rw [Nat.pow_succ, Nat.mul_comm]
    _ ≤ 2 ^ more := Nat.pow_le_pow_right (by omega) hbits

namespace Capacity

variable {capacity used more fitted size : Nat}

/-- The powers of two from `capacity` on that admit so many slots in use. -/
def candidates (capacity used : Nat) : Set Nat :=
  {size | Ring.IsBinary size ∧ capacity ≤ size ∧ Admits size used}

theorem Admits.mono (hadmits : Admits capacity more) (hle : used ≤ more) :
    Admits capacity used := by
  unfold Admits at *
  omega

theorem Admits.max (hused : Admits capacity used)
    (hmore : Admits capacity more) : Admits capacity (max used more) := by
  unfold Admits at *
  omega

theorem candidates_anti (hle : used ≤ more)
    (hsize : size ∈ candidates capacity more) :
    size ∈ candidates capacity used :=
  ⟨hsize.1, hsize.2.1, hsize.2.2.mono hle⟩

theorem exists_isLeast (capacity used : Nat) :
    ∃ fitted, IsLeast (candidates capacity used) fitted := by
  classical
  have hlarge : 2 ^ (capacity + 2 * used) ∈ candidates capacity used := by
    have hpow : capacity + 2 * used < 2 ^ (capacity + 2 * used) :=
      Nat.lt_two_pow_self
    refine ⟨⟨_, rfl⟩, by omega, ?_⟩
    unfold Admits
    omega
  exact ⟨_, Set.Nonempty.isLeast_natFind ⟨_, hlarge⟩⟩

theorem isLeast_of_admits (hbinary : Ring.IsBinary capacity)
    (hadmits : Admits capacity used) :
    IsLeast (candidates capacity used) capacity :=
  ⟨⟨hbinary, le_rfl, hadmits⟩, fun _ hsize => hsize.2.1⟩

theorem isLeast_refit (hleast : IsLeast (candidates capacity used) size)
    (hle : used ≤ more) (hrefit : IsLeast (candidates size more) fitted) :
    IsLeast (candidates capacity more) fitted := by
  obtain ⟨⟨hbinary, hsize, hadmits⟩, hbelow⟩ := hrefit
  refine ⟨⟨hbinary, hleast.1.2.1.trans hsize, hadmits⟩, ?_⟩
  intro other hother
  have hlarger : size ≤ other := hleast.2 (candidates_anti hle hother)
  exact hbelow ⟨hother.1, hlarger, hother.2.2⟩

/-! ## Fits -/

theorem candidates_double (hbinary : Ring.IsBinary capacity)
    (hfull : ¬ Admits capacity used) :
    candidates capacity used = candidates (2 * capacity) used := by
  ext size
  constructor
  · rintro ⟨hsize, hle, hadmits⟩
    have hlt : capacity < size :=
      lt_of_le_of_ne hle fun heq => hfull (heq ▸ hadmits)
    exact ⟨hsize, hbinary.double_le hsize hlt, hadmits⟩
  · rintro ⟨hsize, hle, hadmits⟩
    exact ⟨hsize, by omega, hadmits⟩

theorem isLeast_of_fitWithin {tries : Nat}
    (hbinary : Ring.IsBinary capacity)
    (hfit : fitWithin tries capacity used = .ok fitted) :
    IsLeast (candidates capacity used) fitted := by
  induction tries generalizing capacity with
  | zero => simp [fitWithin] at hfit
  | succ tries ih =>
      rw [fitWithin] at hfit
      by_cases hadmits : Admits capacity used
      · rw [if_pos hadmits, Except.ok.injEq] at hfit
        exact hfit ▸ isLeast_of_admits hbinary hadmits
      · rw [if_neg hadmits] at hfit
        by_cases hword : 2 * capacity < UInt64.size
        · rw [if_pos hword] at hfit
          rw [candidates_double hbinary hadmits]
          exact ih hbinary.double hfit
        · simp [hword] at hfit

theorem isLeast_of_fit (hbinary : Ring.IsBinary capacity)
    (hfit : fit capacity used = .ok fitted) :
    IsLeast (candidates capacity used) fitted :=
  isLeast_of_fitWithin hbinary hfit

/-- With enough tries, only a machine word's size ends the search. -/
theorem wordSize_le_of_fitWithin {tries : Nat} {fault : Fault}
    (hbinary : Ring.IsBinary capacity)
    (htries : UInt64.size ≤ 2 ^ tries * capacity)
    (hfit : fitWithin tries capacity used = .error fault)
    (hsize : size ∈ candidates capacity used) : UInt64.size ≤ size := by
  induction tries generalizing capacity with
  | zero =>
      have hle : capacity ≤ size := hsize.2.1
      omega
  | succ tries ih =>
      rw [fitWithin] at hfit
      by_cases hadmits : Admits capacity used
      · simp [hadmits] at hfit
      · rw [if_neg hadmits] at hfit
        rw [candidates_double hbinary hadmits] at hsize
        by_cases hword : 2 * capacity < UInt64.size
        · rw [if_pos hword] at hfit
          apply ih hbinary.double _ hfit hsize
          rwa [← Nat.mul_assoc, ← Nat.pow_succ]
        · have hle : 2 * capacity ≤ size := hsize.2.1
          omega

theorem fit_eq_ok_iff (hbinary : Ring.IsBinary capacity)
    (hword : capacity < UInt64.size) :
    fit capacity used = .ok fitted ↔
      IsLeast (candidates capacity used) fitted ∧
        fitted < UInt64.size := by
  constructor
  · intro hfit
    exact ⟨isLeast_of_fit hbinary hfit,
      (fits_of_fit hfit).lt_wordSize hword⟩
  · rintro ⟨hleast, hlt⟩
    cases hfit : fit capacity used with
    | ok other =>
        rw [hleast.unique (isLeast_of_fit hbinary hfit)]
    | error fault =>
        have htries : UInt64.size ≤ 2 ^ 64 * capacity :=
          Nat.le_mul_of_pos_right (2 ^ 64) hbinary.pos
        have hover : UInt64.size ≤ fitted :=
          wordSize_le_of_fitWithin hbinary htries hfit hleast.1
        omega

end Capacity

end LinearProbing
