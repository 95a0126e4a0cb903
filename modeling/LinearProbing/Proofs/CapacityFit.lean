import LinearProbing.Capacity
import LinearProbing.Proofs.RingWalk

/-!
# What fitting a capacity gives

A fit admits the slots in use, is the old capacity doubled some number of
times, and is a machine word unless nothing was doubled.  The only fault is
an overflow.  When one doubling is enough, as it is after one insertion, the
fit is exactly that doubling.
-/

namespace LinearProbing.Capacity

variable {capacity used fitted : Nat}

structure Fits (capacity used fitted : Nat) : Prop where
  admits : Admits fitted used
  doubled : ∃ doublings, fitted = 2 ^ doublings * capacity
  word : fitted = capacity ∨ fitted < UInt64.size

theorem fits_of_fitWithin {tries : Nat}
    (hfit : fitWithin tries capacity used = .ok fitted) :
    Fits capacity used fitted := by
  induction tries generalizing capacity with
  | zero => simp [fitWithin] at hfit
  | succ tries ih =>
      rw [fitWithin] at hfit
      by_cases hadmits : Admits capacity used
      · rw [if_pos hadmits, Except.ok.injEq] at hfit
        subst hfit
        exact ⟨hadmits, ⟨0, by simp⟩, Or.inl rfl⟩
      · rw [if_neg hadmits] at hfit
        by_cases hword : 2 * capacity < UInt64.size
        · rw [if_pos hword] at hfit
          obtain ⟨hfitted, ⟨doublings, hdoubled⟩, hlast⟩ := ih hfit
          refine ⟨hfitted, ⟨doublings + 1, ?_⟩, Or.inr ?_⟩
          · rw [hdoubled, Nat.pow_succ, Nat.mul_assoc]
          · rcases hlast with heq | hlt
            · rwa [heq]
            · exact hlt
        · rw [if_neg hword] at hfit
          simp at hfit

theorem fits_of_fit (hfit : fit capacity used = .ok fitted) :
    Fits capacity used fitted :=
  fits_of_fitWithin hfit

theorem fitWithin_error {tries : Nat} {fault : Fault}
    (hfit : fitWithin tries capacity used = .error fault) :
    fault = .capacityOverflow := by
  induction tries generalizing capacity with
  | zero => simpa [fitWithin] using hfit.symm
  | succ tries ih =>
      rw [fitWithin] at hfit
      by_cases hadmits : Admits capacity used
      · simp [hadmits] at hfit
      · rw [if_neg hadmits] at hfit
        by_cases hword : 2 * capacity < UInt64.size
        · rw [if_pos hword] at hfit
          exact ih hfit
        · rw [if_neg hword, Except.error.injEq] at hfit
          exact hfit.symm

theorem fit_of_admits (hadmits : Admits capacity used) :
    fit capacity used = .ok capacity := by
  rw [fit, fitWithin, if_pos hadmits]

theorem not_admits_of_fit_ne (hfit : fit capacity used = .ok fitted)
    (hne : fitted ≠ capacity) : ¬ Admits capacity used := by
  intro hadmits
  rw [fit_of_admits hadmits, Except.ok.injEq] at hfit
  exact hne hfit.symm

theorem fit_of_double (hfull : ¬ Admits capacity used)
    (hadmits : Admits (2 * capacity) used) :
    fit capacity used =
      if 2 * capacity < UInt64.size then .ok (2 * capacity)
      else .error .capacityOverflow := by
  rw [fit, fitWithin, if_neg hfull]
  by_cases hword : 2 * capacity < UInt64.size
  · rw [if_pos hword, if_pos hword, fitWithin, if_pos hadmits]
  · rw [if_neg hword, if_neg hword]

theorem Fits.isBinary (hfits : Fits capacity used fitted)
    (hbinary : Ring.IsBinary capacity) : Ring.IsBinary fitted := by
  rcases hbinary with ⟨bits, rfl⟩
  rcases hfits.doubled with ⟨doublings, rfl⟩
  exact ⟨doublings + bits, (Nat.pow_add 2 doublings bits).symm⟩

theorem Fits.le (hfits : Fits capacity used fitted) : capacity ≤ fitted := by
  rcases hfits.doubled with ⟨doublings, rfl⟩
  exact Nat.le_mul_of_pos_left capacity (Nat.two_pow_pos doublings)

theorem Fits.lt_wordSize (hfits : Fits capacity used fitted)
    (hword : capacity < UInt64.size) : fitted < UInt64.size := by
  rcases hfits.word with heq | hlt
  · rwa [heq]
  · exact hlt

end LinearProbing.Capacity
