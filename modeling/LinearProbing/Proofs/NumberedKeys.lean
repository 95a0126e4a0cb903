import LinearProbing.Proofs.Refinement
import LinearProbing.Survey
import Mathlib.Algebra.Order.Floor.Div

/-!
# Numbered keys

The key of a number spells it in sixteen hexadecimal digits, so the keys of
different numbers of one machine word are different: a digit can be told from
its character, and the number from its digits.  The numbers that are removed
again are the multiples of the step, each of them once.
-/

namespace LinearProbing

namespace Hex

def byte (c : Char) : UInt8 :=
  UInt8.ofNat c.toNat

theorem byte_digit_injective {m n : Nat} (hm : m < 16) (hn : n < 16)
    (hbyte : byte (digit .upper m) = byte (digit .upper n)) : m = n := by
  have hall : ∀ m n : Fin 16,
      byte (digit .upper m) = byte (digit .upper n) → m = n := by decide
  exact Fin.mk.inj_iff.mp (hall ⟨m, hm⟩ ⟨n, hn⟩ hbyte)

theorem bytes_digits_injective {width m n : Nat} (hm : m < 16 ^ width)
    (hn : n < 16 ^ width)
    (hbytes : (digits .upper width m).map byte =
      (digits .upper width n).map byte) : m = n := by
  induction width generalizing m n with
  | zero => omega
  | succ width ih =>
      rw [digits, digits, List.map_append, List.map_append] at hbytes
      obtain ⟨hhigh, hlow⟩ := List.append_inj' hbytes rfl
      rw [Nat.pow_succ] at hm hn
      have hquotient : m / 16 = n / 16 :=
        ih (Nat.div_lt_of_lt_mul (by omega))
          (Nat.div_lt_of_lt_mul (by omega)) hhigh
      have hremainder : m % 16 = n % 16 :=
        byte_digit_injective (Nat.mod_lt m (by omega))
          (Nat.mod_lt n (by omega)) (List.singleton_inj.mp hlow)
      omega

end Hex

namespace Survey

variable {entries every : Nat}

theorem key_injective {m n : Nat} (hm : m < 2 ^ 64) (hn : n < 2 ^ 64)
    (hkey : key m = key n) : m = n := by
  unfold key at hkey
  rw [List.map_append, List.map_append] at hkey
  exact Hex.bytes_digits_injective hm hn (List.append_cancel_left hkey)

@[simp]
theorem length_key (i : Nat) : (key i).length = 20 := by
  rw [key, List.length_map, List.length_append, Hex.length_digits]
  rfl

@[simp]
theorem length_value (i : Nat) : (value i).length = 8 :=
  LittleEndian.length_digits 8 i

theorem key_ne_nil (i : Nat) : key i ≠ [] := by
  intro hnil
  have hlength := length_key i
  rw [hnil] at hlength
  exact absurd hlength nofun

theorem isKey_plain_key (i : Nat) : (View.plain (key i)).IsKey 1 :=
  ⟨key_ne_nil i, rfl⟩

theorem nodup_keys {numbers : List Nat} (hnodup : numbers.Nodup)
    (hword : ∀ i ∈ numbers, i < 2 ^ 64) : (numbers.map key).Nodup := by
  refine hnodup.map_on ?_
  intro m hm n hn hkey
  exact key_injective (hword m hm) (hword n hn) hkey

/-! ## The multiples of the step -/

theorem length_multiples (entries : Nat) (hevery : 0 < every) :
    (multiples entries every).length = entries ⌈/⌉ every := by
  rw [multiples, List.length_map, List.length_range,
    Nat.ceilDiv_eq_add_pred_div, Nat.add_sub_assoc hevery]

theorem lt_of_mem_multiples {i : Nat}
    (hmem : i ∈ multiples entries every) : i < entries := by
  obtain ⟨factor, hfactor, rfl⟩ := List.mem_map.mp hmem
  have hevery : 0 < every := by
    by_contra hzero
    have hnone : every = 0 := by omega
    simp [hnone] at hfactor
  have hle : (factor + 1) * every ≤ entries + (every - 1) :=
    (Nat.le_div_iff_mul_le hevery).mp (List.mem_range.mp hfactor)
  rw [Nat.add_mul, Nat.one_mul, Nat.mul_comm] at hle
  omega

theorem nodup_multiples (entries : Nat) (hevery : 0 < every) :
    (multiples entries every).Nodup := by
  apply List.nodup_range.map
  intro m n hsame
  exact Nat.eq_of_mul_eq_mul_left hevery hsame

end Survey

end LinearProbing
