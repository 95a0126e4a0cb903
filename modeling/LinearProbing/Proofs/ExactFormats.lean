import LinearProbing.Proofs.CodecLaws

/-!
# Formats are exact

An exact codec reads every byte string of its width, as the one value that is
written so, and no other byte string.  Writing and reading are then the two
directions of a bijection.  All formats are exact: the unsigned ones because
digits and values undo each other, the signed ones and the floating point
numbers because their values stand for the unsigned ones one by one, and byte
strings because they are written as they are.

Floating point numbers are bit patterns here.  So the two zeros are different
keys of a table, and so are any two NaNs with different bits.
-/

namespace LinearProbing

open LittleEndian (bound bound_pos)

/-! ## Exact codecs -/

namespace Codec

variable {α β : Type} {codec : Codec α}

structure Exact (codec : Codec α) : Prop where
  readsBack : codec.ReadsBack
  encode_of_decode :
    ∀ bytes value, codec.decode bytes = some value →
      codec.encode value = bytes
  isSome_iff :
    ∀ bytes, (codec.decode bytes).isSome ↔ bytes.length = codec.width

theorem Exact.decode_eq_some_iff (hexact : codec.Exact) {bytes : Bytes}
    {value : α} :
    codec.decode bytes = some value ↔
      bytes.length = codec.width ∧ codec.encode value = bytes := by
  constructor
  · intro hread
    have hlength := (hexact.isSome_iff bytes).mp (by rw [hread]; rfl)
    exact ⟨hlength, hexact.encode_of_decode bytes value hread⟩
  · rintro ⟨-, rfl⟩
    exact hexact.readsBack value

theorem Exact.decode_eq_none_iff (hexact : codec.Exact) {bytes : Bytes} :
    codec.decode bytes = none ↔ bytes.length ≠ codec.width := by
  rw [ne_eq, ← hexact.isSome_iff, Option.not_isSome_iff_eq_none]

theorem Exact.along (hexact : codec.Exact) {write : β → α} {read : α → β}
    (hwrite : Function.LeftInverse read write)
    (hread : Function.RightInverse read write) :
    (codec.along write read).Exact where
  readsBack := hexact.readsBack.along hwrite
  encode_of_decode := by
    intro bytes value hdecode
    obtain ⟨word, hword, rfl⟩ := Option.map_eq_some_iff.mp hdecode
    change codec.encode (write (read word)) = bytes
    rw [hread word]
    exact hexact.encode_of_decode bytes word hword
  isSome_iff := by
    intro bytes
    change ((codec.decode bytes).map read).isSome ↔ _
    rw [Option.isSome_map]
    exact hexact.isSome_iff bytes

theorem exact_unsigned (width : Nat) : (unsigned width).Exact where
  readsBack := readsBack_unsigned width
  encode_of_decode := by
    intro bytes value hdecode
    obtain ⟨rfl, hvalue⟩ := Option.dite_none_right_eq_some.mp hdecode
    rw [← Option.some.inj hvalue]
    exact LittleEndian.digits_value bytes
  isSome_iff := by
    intro bytes
    exact Option.isSome_dite

theorem exact_bytes (length : Nat) : (bytes length).Exact where
  readsBack := by
    intro data
    exact dif_pos data.length_toList
  encode_of_decode := by
    intro bytes value hdecode
    obtain ⟨rfl, hvalue⟩ := Option.dite_none_right_eq_some.mp hdecode
    rw [← Option.some.inj hvalue]
    rfl
  isSome_iff := by
    intro bytes
    exact Option.isSome_dite

end Codec

/-! ## Two's complement -/

namespace TwosComplement

variable {width : Nat}

theorem ofFin_toFin (n : TwosComplement width) : ofFin n.toFin = n := by
  rcases n with ⟨value, hlower, hupper⟩
  have hpos := bound_pos width
  by_cases hnegative : value < 0
  · have hword : value % (bound width : Int) = value + bound width := by
      rw [← Int.add_emod_right]
      exact Int.emod_eq_of_lt (by omega) (by omega)
    simp only [toFin, ofFin, hword]
    rw [dif_neg (by omega), mk.injEq]
    omega
  · have hword : value % (bound width : Int) = value :=
      Int.emod_eq_of_lt (by omega) (by omega)
    simp only [toFin, ofFin, hword]
    rw [dif_pos (by omega), mk.injEq]
    omega

theorem toFin_ofFin (word : Fin (bound width)) : (ofFin word).toFin = word := by
  rcases word with ⟨word, hlt⟩
  apply Fin.ext
  by_cases hlow : 2 * word < bound width
  · have hword : (word : Int) % bound width = word :=
      Int.emod_eq_of_lt (by omega) (by omega)
    simp only [toFin, ofFin, dif_pos hlow, hword, Int.toNat_natCast]
  · have hword : ((word : Int) - bound width) % bound width = word := by
      rw [Int.sub_emod_right]
      exact Int.emod_eq_of_lt (by omega) (by omega)
    simp only [toFin, ofFin, dif_neg hlow, hword, Int.toNat_natCast]

end TwosComplement

/-! ## Formats -/

namespace Format

/-- The number of bytes in every encoding. -/
def size : Format → Nat
  | .unsigned width | .signed width | .binary width | .bytes width => width

theorem width_codec (format : Format) : format.codec.width = format.size := by
  cases format <;> rfl

theorem exact_codec (format : Format) : format.codec.Exact := by
  cases format with
  | unsigned width => exact Codec.exact_unsigned width
  | signed width =>
      exact (Codec.exact_unsigned width).along TwosComplement.ofFin_toFin
        TwosComplement.toFin_ofFin
  | binary width =>
      exact (Codec.exact_unsigned width).along (fun _ => rfl) fun _ => rfl
  | bytes length => exact Codec.exact_bytes length

/-- Writing and reading are inverse to each other between all the values of a
format and all the byte strings of its size. -/
theorem values_biject (format : Format) :
    (∀ value, (format.codec.encode value).length = format.size ∧
        format.codec.decode (format.codec.encode value) = some value) ∧
      (∀ bytes value, format.codec.decode bytes = some value ↔
        bytes.length = format.size ∧ format.codec.encode value = bytes) ∧
      (∀ bytes, format.codec.decode bytes = none ↔
        bytes.length ≠ format.size) ∧
      ∀ key other, (format.codec.view key).bytes =
        (format.codec.view other).bytes ↔ key = other := by
  have hexact := format.exact_codec
  rw [← width_codec]
  refine ⟨?_, ?_, ?_, ?_⟩
  · intro value
    exact ⟨format.codec.length_encode value, hexact.readsBack value⟩
  · intro bytes value
    exact hexact.decode_eq_some_iff
  · intro bytes
    exact hexact.decode_eq_none_iff
  · intro key other
    exact hexact.readsBack.injective.eq_iff

/-- The two zeros of eight bytes. -/
example :
    (Codec.binary 8).encode ⟨⟨0, by decide⟩⟩ ≠
      (Codec.binary 8).encode ⟨⟨1 <<< 63, by decide⟩⟩ := by
  decide

/-- Two NaNs of eight bytes. -/
example :
    (Codec.binary 8).encode ⟨⟨0x7ff8000000000000, by decide⟩⟩ ≠
      (Codec.binary 8).encode ⟨⟨0x7ff8000000000001, by decide⟩⟩ := by
  decide

end Format

end LinearProbing
