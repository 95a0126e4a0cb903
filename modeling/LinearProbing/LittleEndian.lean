/-!
# Numbers as bytes

A number of `width` bytes is written with its least significant byte first.
The numbers that fit lie below `bound width`; on them `digits` and `value`
undo each other (`value_digits`), and every byte string is the writing of its
own value (`digits_value`).
-/

namespace LinearProbing

abbrev Bytes := List UInt8

namespace LittleEndian

/-- One more than the largest number of `width` bytes. -/
def bound : Nat → Nat
  | 0 => 1
  | width + 1 => 256 * bound width

def digits : Nat → Nat → Bytes
  | 0, _ => []
  | width + 1, n => UInt8.ofNat n :: digits width (n / 256)

def value : Bytes → Nat
  | [] => 0
  | b :: bytes => b.toNat + 256 * value bytes

theorem bound_pos (width : Nat) : 0 < bound width := by
  induction width with
  | zero => decide
  | succ width ih =>
      rw [bound]
      omega

@[simp]
theorem length_digits (width n : Nat) : (digits width n).length = width := by
  induction width generalizing n with
  | zero => rfl
  | succ width ih => simp [digits, ih]

theorem value_lt (bytes : Bytes) : value bytes < bound bytes.length := by
  induction bytes with
  | nil => decide
  | cons b bytes ih =>
      have hb := b.toNat_lt
      simp only [value, List.length_cons, bound]
      omega

theorem value_digits (width n : Nat) :
    value (digits width n) = n % bound width := by
  induction width generalizing n with
  | zero => simp [digits, value, bound, Nat.mod_one]
  | succ width ih =>
      have hlow : (UInt8.ofNat n).toNat = n % 256 := UInt8.toNat_ofNat'
      rw [digits, value, ih, hlow, bound, Nat.mod_mul]

theorem digits_value (bytes : Bytes) :
    digits bytes.length (value bytes) = bytes := by
  induction bytes with
  | nil => rfl
  | cons b bytes ih =>
      have hb := b.toNat_lt
      have hlow : UInt8.ofNat (b.toNat + 256 * value bytes) = b := by
        apply UInt8.toNat_inj.mp
        rw [UInt8.toNat_ofNat']
        omega
      have hhigh : (b.toNat + 256 * value bytes) / 256 = value bytes := by omega
      simp only [List.length_cons, value, digits, hlow, hhigh, ih]

end LittleEndian

end LinearProbing
