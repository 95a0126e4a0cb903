import LinearProbing.LittleEndian

/-!
# Hexadecimal text

`digits width n` writes the last `width` hexadecimal digits of `n`, zeros
included, most significant digit first.
-/

namespace LinearProbing.Hex

inductive Case
  | lower
  | upper

def digit (letters : Case) (n : Nat) : Char :=
  if n < 10 then
    Char.ofNat ('0'.toNat + n)
  else
    match letters with
    | .lower => Char.ofNat ('a'.toNat + (n - 10))
    | .upper => Char.ofNat ('A'.toNat + (n - 10))

def digits (letters : Case) : Nat → Nat → List Char
  | 0, _ => []
  | width + 1, n =>
      digits letters width (n / 16) ++ [digit letters (n % 16)]

/-- Lower-case digits behind the usual `0x`. -/
def literal (width n : Nat) : String :=
  "0x" ++ String.ofList (digits .lower width n)

def ofBytes (bytes : Bytes) : String :=
  String.ofList (bytes.flatMap fun b => digits .lower 2 b.toNat)

@[simp]
theorem length_digits (letters : Case) (width n : Nat) :
    (digits letters width n).length = width := by
  induction width generalizing n with
  | zero => rfl
  | succ width ih => simp [digits, ih]

end LinearProbing.Hex
