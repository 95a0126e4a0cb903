import LinearProbing.Fnv
import Mathlib.Logic.Function.Basic

/-!
# Hash states are permuted

The prime of the hash is odd, so multiplication by it can be undone, and so
can the xor before it.  Hence a byte is absorbed by a permutation of the
states, and every string is written by one: `rewind` takes a string back from
any state.  Two strings of one ending therefore collide only if what stands
before the ending collides.

A single byte in the same place is another matter.  From one state, different
bytes lead to different states, and no common ending brings these together
again (`fnv1a_ne_of_middle`).
-/

namespace LinearProbing

/-! ## Numbers spelled in bytes -/

/-- The bytes of a number, or of its remainder if it is negative or too
large, with the least significant one first. -/
structure LittleEndian.Spells (width : Nat) (number : Int) (bytes : Bytes) :
    Prop where
  length_eq : bytes.length = width
  value_eq : (value bytes : Int) = number % bound width

namespace LittleEndian

variable {width : Nat} {number other : Int} {bytes : Bytes}

theorem spells_digits (width n : Nat) : Spells width n (digits width n) where
  length_eq := length_digits width n
  value_eq := by
    rw [value_digits, Int.natCast_emod]

theorem Spells.congr (hspells : Spells width number bytes)
    (hsame : number % bound width = other % bound width) :
    Spells width other bytes :=
  ⟨hspells.length_eq, hspells.value_eq.trans hsame⟩

/-- There is one spelling only. -/
theorem Spells.unique {others : Bytes} (hbytes : Spells width number bytes)
    (hothers : Spells width number others) : bytes = others := by
  have hvalue : value bytes = value others := by
    have hsame := hbytes.value_eq.trans hothers.value_eq.symm
    exact Int.ofNat_inj.mp hsame
  rw [← digits_value bytes, ← digits_value others, hbytes.length_eq,
    hothers.length_eq, hvalue]

end LittleEndian

namespace Fnv

open LittleEndian (Spells spells_digits)

variable {hasher : Fnv} {byte : UInt8} {bytes left right : Bytes}

/-- What a piece hands to a hasher. -/
def Piece.Contributes : Piece → Bytes → Prop
  | .bytes data, bytes => bytes = data
  | .uint8 n, bytes => Spells 1 n.toNat bytes
  | .uint16 n, bytes => Spells 2 n.toNat bytes
  | .uint32 n, bytes => Spells 4 n.toNat bytes
  | .uint64 n, bytes => Spells 8 n.toNat bytes
  | .int32 n, bytes => Spells 4 n.toInt bytes
  | .int64 n, bytes => Spells 8 n.toInt bytes

theorem Piece.contributes_encoding (piece : Piece) :
    piece.Contributes piece.encoding := by
  cases piece with
  | bytes data => exact rfl
  | uint8 n => exact spells_digits 1 n.toNat
  | uint16 n => exact spells_digits 2 n.toNat
  | uint32 n => exact spells_digits 4 n.toNat
  | uint64 n => exact spells_digits 8 n.toNat
  | int32 n =>
      have hword : n.toInt = (n.toUInt32.toNat : Int).bmod (2 ^ 32) :=
        BitVec.toInt_eq_toNat_bmod n.toBitVec
      apply (spells_digits 4 n.toUInt32.toNat).congr
      rw [hword]
      exact Int.bmod_emod.symm
  | int64 n =>
      have hword : n.toInt = (n.toUInt64.toNat : Int).bmod (2 ^ 64) :=
        BitVec.toInt_eq_toNat_bmod n.toBitVec
      apply (spells_digits 8 n.toUInt64.toNat).congr
      rw [hword]
      exact Int.bmod_emod.symm

/-! ## Taking bytes back -/

def primeInverse : UInt32 := 899433627

theorem prime_mul_primeInverse : prime * primeInverse = 1 := by
  decide

def release (hasher : Fnv) (byte : UInt8) : Fnv :=
  ⟨hasher.word * primeInverse ^^^ byte.toUInt32⟩

/-- Takes a string back, beginning with its last byte. -/
def rewind (hasher : Fnv) (bytes : Bytes) : Fnv :=
  bytes.foldr (fun byte hasher => hasher.release byte) hasher

theorem release_absorb (hasher : Fnv) (byte : UInt8) :
    (hasher.absorb byte).release byte = hasher := by
  rcases hasher with ⟨word⟩
  simp only [absorb, release]
  rw [UInt32.mul_assoc, prime_mul_primeInverse, UInt32.mul_one,
    UInt32.xor_assoc, UInt32.xor_self, UInt32.xor_zero]

theorem absorb_release (hasher : Fnv) (byte : UInt8) :
    (hasher.release byte).absorb byte = hasher := by
  rcases hasher with ⟨word⟩
  simp only [absorb, release]
  rw [UInt32.xor_assoc, UInt32.xor_self, UInt32.xor_zero, UInt32.mul_assoc,
    UInt32.mul_comm primeInverse, prime_mul_primeInverse, UInt32.mul_one]

theorem rewind_write (hasher : Fnv) (bytes : Bytes) :
    (hasher.write bytes).rewind bytes = hasher := by
  induction bytes generalizing hasher with
  | nil => rfl
  | cons byte bytes ih =>
      have hlater := ih (hasher.absorb byte)
      rw [write_cons]
      change (((hasher.absorb byte).write bytes).rewind bytes).release byte =
        hasher
      rw [hlater, release_absorb]

theorem write_rewind (hasher : Fnv) (bytes : Bytes) :
    (hasher.rewind bytes).write bytes = hasher := by
  induction bytes with
  | nil => rfl
  | cons byte bytes ih =>
      rw [write_cons]
      change (((hasher.rewind bytes).release byte).absorb byte).write bytes =
        hasher
      rw [absorb_release, ih]

theorem bijective_write (bytes : Bytes) :
    Function.Bijective fun hasher : Fnv => hasher.write bytes :=
  Function.bijective_iff_has_inverse.mpr
    ⟨fun hasher => hasher.rewind bytes, fun hasher => hasher.rewind_write bytes,
      fun hasher => hasher.write_rewind bytes⟩

/-! ## Collisions -/

theorem absorb_eq_iff {other : UInt8} :
    hasher.absorb byte = hasher.absorb other ↔ byte = other := by
  constructor
  · intro hsame
    have hword : (hasher.absorb byte).word * primeInverse =
        (hasher.absorb other).word * primeInverse := by rw [hsame]
    simp only [absorb] at hword
    rw [UInt32.mul_assoc, UInt32.mul_assoc, prime_mul_primeInverse,
      UInt32.mul_one, UInt32.mul_one, UInt32.xor_right_inj] at hword
    exact UInt8.toUInt32_inj.mp hword
  · intro hsame
    rw [hsame]

theorem fnv1a_eq_iff_write_eq :
    fnv1a left = fnv1a right ↔ start.write left = start.write right := by
  constructor
  · intro hsame
    exact congrArg Fnv.mk hsame
  · intro hsame
    rw [fnv1a, fnv1a, hsame]

theorem fnv1a_append_eq_iff (left right last : Bytes) :
    fnv1a (left ++ last) = fnv1a (right ++ last) ↔
      fnv1a left = fnv1a right := by
  rw [fnv1a_eq_iff_write_eq, fnv1a_eq_iff_write_eq, write_append,
    write_append]
  exact (bijective_write last).injective.eq_iff

theorem fnv1a_ne_of_middle {first second : UInt8} (hne : first ≠ second)
    (before after : Bytes) :
    fnv1a (before ++ first :: after) ≠ fnv1a (before ++ second :: after) := by
  have hmiddle : ∀ byte : UInt8,
      before ++ byte :: after = (before ++ [byte]) ++ after := by simp
  rw [hmiddle first, hmiddle second, ne_eq, fnv1a_append_eq_iff,
    fnv1a_eq_iff_write_eq, write_append, write_append]
  exact mt absorb_eq_iff.mp hne

/-- The strings have one length and differ in exactly one place. -/
structure DifferOnce (left right : Bytes) : Prop where
  length_eq : left.length = right.length
  once : ∃! index : Nat, left[index]? ≠ right[index]?

/-- Before and behind the place where they differ the strings are the
same. -/
theorem DifferOnce.exists_middle (honce : DifferOnce left right) :
    ∃ before first second after, first ≠ second ∧
      left = before ++ first :: after ∧
      right = before ++ second :: after := by
  obtain ⟨hlength, index, hdiffer, honly⟩ := honce
  have hsame : ∀ other, other ≠ index → left[other]? = right[other]? := by
    intro other hother
    by_contra hne
    exact hother (honly other hne)
  have hleft : index < left.length := by
    by_contra hbeyond
    have hright : right.length ≤ index := by omega
    rw [List.getElem?_eq_none (by omega), List.getElem?_eq_none hright]
      at hdiffer
    exact hdiffer rfl
  have hright : index < right.length := hlength ▸ hleft
  have hbefore : left.take index = right.take index := by
    apply List.ext_getElem?
    intro other
    rw [List.getElem?_take, List.getElem?_take]
    by_cases hlt : other < index
    · rw [if_pos hlt, if_pos hlt, hsame other (by omega)]
    · rw [if_neg hlt, if_neg hlt]
  have hafter : left.drop (index + 1) = right.drop (index + 1) := by
    apply List.ext_getElem?
    intro other
    rw [List.getElem?_drop, List.getElem?_drop, hsame _ (by omega)]
  refine ⟨left.take index, left[index], right[index],
    left.drop (index + 1), ?_, ?_, ?_⟩
  · intro heq
    rw [List.getElem?_eq_getElem hleft, List.getElem?_eq_getElem hright, heq]
      at hdiffer
    exact hdiffer rfl
  · rw [← List.drop_eq_getElem_cons hleft, List.take_append_drop]
  · rw [hbefore, hafter, ← List.drop_eq_getElem_cons hright,
      List.take_append_drop]

/-! ## Writing in pieces -/

theorem foldl_feed (hasher : Fnv) (pieces : List Piece) :
    pieces.foldl feed hasher =
      hasher.write (pieces.flatMap Piece.encoding) := by
  induction pieces generalizing hasher with
  | nil => rfl
  | cons piece pieces ih =>
      rw [List.foldl_cons, ih, feed, ← write_append, List.flatMap_cons]

/-- Writing permutes the states, one changed byte always shows, and of pieces
only the bytes count that they contribute. -/
theorem hashes_by_permutations :
    (∀ bytes : Bytes,
        Function.Bijective fun hasher : Fnv => hasher.write bytes) ∧
      (∀ left right last : Bytes,
        fnv1a (left ++ last) = fnv1a (right ++ last) ↔
          fnv1a left = fnv1a right) ∧
      (∀ left right : Bytes, DifferOnce left right →
        fnv1a left ≠ fnv1a right) ∧
      (∀ pieces : List Piece,
        let last := pieces.foldl feed start
        let bytes := pieces.flatMap Piece.encoding
        last.digest = fnv1a bytes ∧
          last.wideDigest.toNat = (fnv1a bytes).toNat) ∧
      ∀ (piece : Piece) (bytes : Bytes),
        piece.Contributes bytes ↔ bytes = piece.encoding := by
  refine ⟨bijective_write, fnv1a_append_eq_iff, ?_, ?_, ?_⟩
  · intro left right honce
    obtain ⟨before, first, second, after, hne, rfl, rfl⟩ :=
      honce.exists_middle
    exact fnv1a_ne_of_middle hne before after
  · intro pieces last bytes
    have hlast : last = start.write bytes := foldl_feed start pieces
    rw [hlast]
    exact ⟨rfl, UInt32.toNat_toUInt64 _⟩
  · intro piece bytes
    constructor
    · intro hbytes
      have hencoding := piece.contributes_encoding
      cases piece with
      | bytes data => exact hbytes
      | _ => exact LittleEndian.Spells.unique hbytes hencoding
    · intro heq
      exact heq ▸ piece.contributes_encoding

/-- Two strings of three bytes with a different one in the middle. -/
theorem hashes_by_permutations_middle :
    DifferOnce [1, 2, 3] [1, 7, 3] ∧
      fnv1a [1, 2, 3] ≠ fnv1a [1, 7, 3] := by
  have honce : DifferOnce [1, 2, 3] [1, 7, 3] := by
    refine ⟨rfl, 1, by decide, ?_⟩
    rintro (_ | _ | _ | index) hdiffer
    · exact absurd rfl hdiffer
    · rfl
    · exact absurd rfl hdiffer
    · exact absurd rfl hdiffer
  exact ⟨honce, hashes_by_permutations.2.2.1 _ _ honce⟩

end Fnv

end LinearProbing
