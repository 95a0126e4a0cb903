import LinearProbing.Codec.Format
import LinearProbing.Proofs.Refinement

/-!
# Laws of codecs

A codec that reads back what it writes gives different values different
encodings.  A codec of positive width makes views that a table of its width
accepts as keys.
-/

namespace LinearProbing.Codec

variable {α : Type} {codec : Codec α}

theorem ReadsBack.injective (hreads : codec.ReadsBack) :
    Function.Injective codec.encode := by
  intro left right heq
  have hsome : some left = some right := by
    rw [← hreads left, ← hreads right, heq]
  exact Option.some.inj hsome

/-- What a byte string is written as once it has been read. -/
def reread (codec : Codec α) (bytes : Bytes) : Option Bytes :=
  (codec.decode bytes).map codec.encode

def Writes (codec : Codec α) (encodings : Finset Bytes) : Prop :=
  ∀ bytes ∈ encodings, ∃ value, codec.encode value = bytes

/-- What can be read of the left encodings is among the right ones. -/
def ReadsInto (codec : Codec α) (left right : Finset Bytes) : Prop :=
  ∀ bytes ∈ left, ∀ again, codec.reread bytes = some again → again ∈ right

theorem ReadsBack.reread_eq (hreads : codec.ReadsBack) (value : α) :
    codec.reread (codec.encode value) = some (codec.encode value) := by
  rw [reread, hreads, Option.map_some]

theorem encode_ne_nil (hwidth : 0 < codec.width) (value : α) :
    codec.encode value ≠ [] := by
  intro hnil
  have hlength := codec.length_encode value
  rw [hnil, List.length_nil] at hlength
  omega

/-- An encoding always passes for a view of whole elements. -/
theorem withStride_encode (hwidth : 0 < codec.width) (value : α) :
    View.withStride (codec.encode value) codec.width =
      .ok (codec.view value) :=
  View.withStride_eq_ok_iff.mpr ⟨rfl, aligned_view hwidth value⟩

theorem isKey_view (hwidth : 0 < codec.width) (value : α) :
    (codec.view value).IsKey codec.width :=
  ⟨encode_ne_nil hwidth value, rfl⟩

theorem readsBack_unsigned (width : Nat) : (unsigned width).ReadsBack := by
  intro n
  have hlength : (LittleEndian.digits width n.val).length = width :=
    LittleEndian.length_digits width n.val
  have hvalue : LittleEndian.value (LittleEndian.digits width n.val) =
      n.val := by
    rw [LittleEndian.value_digits, Nat.mod_eq_of_lt n.isLt]
  simp only [unsigned, dif_pos hlength, Option.some.injEq]
  exact Fin.ext hvalue

theorem ReadsBack.along {β : Type} (hreads : codec.ReadsBack)
    {write : β → α} {read : α → β}
    (hinverse : Function.LeftInverse read write) :
    (codec.along write read).ReadsBack := by
  intro value
  have hwritten := hreads (write value)
  change (codec.decode (codec.encode (write value))).map read = some value
  rw [hwritten, Option.map_some, hinverse value]

def octet : Codec UInt8 :=
  (unsigned 1).along UInt8.toFin UInt8.ofFin

theorem readsBack_octet : octet.ReadsBack :=
  (readsBack_unsigned 1).along UInt8.ofFin_toFin

end LinearProbing.Codec
