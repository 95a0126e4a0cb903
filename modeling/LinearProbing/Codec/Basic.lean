import LinearProbing.View

/-!
# Codecs

A codec writes the values of a type as byte strings of one width and reads
them back, or declines to.  Nothing says that it reads what it has written:
`ReadsBack` is that property, and a codec without it is still a codec.
-/

namespace LinearProbing

structure Codec (α : Type) where
  width : Nat
  encode : α → Bytes
  decode : Bytes → Option α
  length_encode : ∀ value, (encode value).length = width

namespace Codec

variable {α : Type}

def ReadsBack (codec : Codec α) : Prop :=
  ∀ value, codec.decode (codec.encode value) = some value

def view (codec : Codec α) (value : α) : View :=
  ⟨codec.encode value, codec.width⟩

/-- Writes as before but reads only the values that `accepts`. -/
def restrict (codec : Codec α) (accepts : α → Bool) : Codec α :=
  { codec with decode := fun bytes => (codec.decode bytes).filter accepts }

theorem aligned_view {codec : Codec α} (hwidth : 0 < codec.width)
    (value : α) : (codec.view value).Aligned :=
  ⟨hwidth, by simp [view, codec.length_encode]⟩

end Codec

end LinearProbing
