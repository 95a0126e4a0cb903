import LinearProbing.Fault
import LinearProbing.LittleEndian

/-!
# Views of byte strings

Callers hand keys and values over as views: bytes together with the size of
one element.  `withStride` makes a view of whole elements or says why there
is none.  Two views agree when their bytes do, whatever their strides.
-/

namespace LinearProbing

structure View where
  bytes : Bytes
  stride : Nat
deriving DecidableEq

namespace View

def plain (bytes : Bytes) : View :=
  ⟨bytes, 1⟩

def empty (stride : Nat) : View :=
  ⟨[], stride⟩

def withStride (bytes : Bytes) (stride : Nat) : Except Fault View :=
  if stride = 0 then
    .error .zeroStride
  else if bytes.length % stride ≠ 0 then
    .error (.misaligned bytes.length stride)
  else
    .ok ⟨bytes, stride⟩

/-- The view holds whole elements of a positive size. -/
structure Aligned (view : View) : Prop where
  stride_pos : 0 < view.stride
  stride_dvd : view.stride ∣ view.bytes.length

def size (view : View) : Nat :=
  view.bytes.length

def length (view : View) : Nat :=
  view.size / view.stride

def isEmpty (view : View) : Bool :=
  view.bytes.isEmpty

def agrees (left right : View) : Bool :=
  left.bytes == right.bytes

def outline (view : View) : Outline :=
  .record "Span"
    [.field "stride" (.nat view.stride), .field "bytes" (.bytes view.bytes)]

theorem aligned_plain (bytes : Bytes) : (plain bytes).Aligned :=
  ⟨Nat.one_pos, Nat.one_dvd _⟩

theorem withStride_eq_ok_iff {bytes : Bytes} {stride : Nat} {view : View} :
    withStride bytes stride = .ok view ↔
      view = ⟨bytes, stride⟩ ∧ view.Aligned := by
  unfold withStride
  constructor
  · intro h
    by_cases hzero : stride = 0
    · simp [hzero] at h
    · by_cases hmod : bytes.length % stride = 0
      · simp only [hzero, hmod, if_false, ne_eq, not_true, Except.ok.injEq] at h
        subst h
        exact ⟨rfl, Nat.pos_of_ne_zero hzero, Nat.dvd_of_mod_eq_zero hmod⟩
      · simp [hzero, hmod] at h
  · rintro ⟨rfl, hpos, hdvd⟩
    have hmod := Nat.mod_eq_zero_of_dvd hdvd
    simp only at hpos hmod
    rw [if_neg (by omega), if_neg (by omega)]

end View

end LinearProbing
