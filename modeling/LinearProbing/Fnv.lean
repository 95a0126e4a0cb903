import LinearProbing.LittleEndian
import LinearProbing.Text.Outline

/-!
# 32-bit FNV-1a

A hasher folds bytes into one 32-bit word: each byte is xored in and the word
is then multiplied by a prime, modulo `2 ^ 32`.  Because a write is a fold,
writing two strings in turn is writing them joined (`write_append`).
-/

namespace LinearProbing

structure Fnv where
  word : UInt32
deriving DecidableEq

namespace Fnv

def prime : UInt32 := 16777619

def start : Fnv :=
  ⟨2166136261⟩

def absorb (hasher : Fnv) (byte : UInt8) : Fnv :=
  ⟨(hasher.word ^^^ byte.toUInt32) * prime⟩

def write (hasher : Fnv) (bytes : Bytes) : Fnv :=
  bytes.foldl absorb hasher

def digest (hasher : Fnv) : UInt32 :=
  hasher.word

def wideDigest (hasher : Fnv) : UInt64 :=
  hasher.word.toUInt64

def outline (hasher : Fnv) : Outline :=
  .record "Fnv1a" [.field "state" (.nat hasher.word.toNat)]

/-- What one call hands to a hasher: a byte string, or a number of fixed
width.  A machine word counts as `uint64`. -/
inductive Piece
  | bytes (data : Bytes)
  | uint8 (n : UInt8)
  | uint16 (n : UInt16)
  | uint32 (n : UInt32)
  | uint64 (n : UInt64)
  | int32 (n : Int32)
  | int64 (n : Int64)

/-- Numbers are hashed as their bytes, the negative ones in two's
complement. -/
def Piece.encoding : Piece → Bytes
  | .bytes data => data
  | .uint8 n => LittleEndian.digits 1 n.toNat
  | .uint16 n => LittleEndian.digits 2 n.toNat
  | .uint32 n => LittleEndian.digits 4 n.toNat
  | .uint64 n => LittleEndian.digits 8 n.toNat
  | .int32 n => LittleEndian.digits 4 n.toUInt32.toNat
  | .int64 n => LittleEndian.digits 8 n.toUInt64.toNat

def feed (hasher : Fnv) (piece : Piece) : Fnv :=
  hasher.write piece.encoding

@[simp]
theorem write_nil (hasher : Fnv) : hasher.write [] = hasher :=
  rfl

@[simp]
theorem write_cons (hasher : Fnv) (byte : UInt8) (bytes : Bytes) :
    hasher.write (byte :: bytes) = (hasher.absorb byte).write bytes :=
  rfl

theorem write_append (hasher : Fnv) (left right : Bytes) :
    hasher.write (left ++ right) = (hasher.write left).write right :=
  List.foldl_append

end Fnv

def fnv1a (bytes : Bytes) : UInt32 :=
  (Fnv.start.write bytes).digest

end LinearProbing
