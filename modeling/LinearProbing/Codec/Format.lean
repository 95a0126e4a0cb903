import LinearProbing.Codec.Basic

/-!
# Fixed-width formats

The formats of plain data: unsigned and two's complement integers, floating
point numbers by their bit patterns, and byte strings of one length.  Every
number is written with its least significant byte first, and a byte string
is read only if it has the format's width.
-/

namespace LinearProbing

open LittleEndian (bound bound_pos)

/-- An integer that two's complement can hold in `width` bytes. -/
structure TwosComplement (width : Nat) where
  value : Int
  lower : -(bound width : Int) ≤ 2 * value
  upper : 2 * value < (bound width : Int)

namespace TwosComplement

def toFin {width : Nat} (n : TwosComplement width) : Fin (bound width) :=
  ⟨(n.value % (bound width : Int)).toNat, by
    have hpos := bound_pos width
    have hlt := Int.emod_lt_of_pos n.value (Int.natCast_pos.mpr hpos)
    omega⟩

/-- The upper half of the words stands for the negative integers. -/
def ofFin {width : Nat} (word : Fin (bound width)) : TwosComplement width :=
  if h : 2 * word.val < bound width then
    ⟨word.val, by omega, by omega⟩
  else
    ⟨(word.val : Int) - bound width, by omega, by omega⟩

end TwosComplement

/-- A floating point number of `width` bytes.  Numbers are told apart by
their bits, so the two zeros differ and so do the NaNs. -/
structure FloatBits (width : Nat) where
  pattern : Fin (bound width)

namespace Codec

def unsigned (width : Nat) : Codec (Fin (bound width)) where
  width := width
  encode n := LittleEndian.digits width n.val
  decode bytes :=
    if h : bytes.length = width then
      some ⟨LittleEndian.value bytes, h ▸ LittleEndian.value_lt bytes⟩
    else
      none
  length_encode := by simp

/-- The codec of a type whose values stand for those of another. -/
def along {α β : Type} (codec : Codec α) (write : β → α) (read : α → β) :
    Codec β where
  width := codec.width
  encode value := codec.encode (write value)
  decode bytes := (codec.decode bytes).map read
  length_encode value := codec.length_encode (write value)

def signed (width : Nat) : Codec (TwosComplement width) :=
  (unsigned width).along TwosComplement.toFin TwosComplement.ofFin

def binary (width : Nat) : Codec (FloatBits width) :=
  (unsigned width).along FloatBits.pattern FloatBits.mk

def bytes (length : Nat) : Codec (Vector UInt8 length) where
  width := length
  encode data := data.toList
  decode bytes :=
    if h : bytes.length = length then
      some ⟨bytes.toArray, by simpa using h⟩
    else
      none
  length_encode := by simp

end Codec

inductive Format
  | unsigned (width : Nat)
  | signed (width : Nat)
  | binary (width : Nat)
  | bytes (length : Nat)
deriving DecidableEq

namespace Format

abbrev Value : Format → Type
  | .unsigned width => Fin (bound width)
  | .signed width => TwosComplement width
  | .binary width => FloatBits width
  | .bytes length => Vector UInt8 length

def codec : (format : Format) → Codec format.Value
  | .unsigned width => .unsigned width
  | .signed width => .signed width
  | .binary width => .binary width
  | .bytes length => .bytes length

end Format

end LinearProbing
