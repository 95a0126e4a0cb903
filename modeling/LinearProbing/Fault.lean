import LinearProbing.Text.Outline

/-!
# Faults

Every reason for which an operation of this library can refuse to answer.
`probeExhausted` is the only one that would show a defect of the table
itself: a walk over all slots that met no empty one.
-/

namespace LinearProbing

inductive Fault
  | emptyKey
  | zeroStride
  | misaligned (size stride : Nat)
  | strideMismatch (expected actual : Nat)
  | allocation (slots : Nat)
  | capacityOverflow
  | probeExhausted (capacity : Nat)
deriving DecidableEq

namespace Fault

def label : Fault → String
  | .emptyKey => "EmptyKey"
  | .zeroStride => "ZeroStride"
  | .misaligned _ _ => "MisalignedSpan"
  | .strideMismatch _ _ => "StrideMismatch"
  | .allocation _ => "Alloc"
  | .capacityOverflow => "CapacityOverflow"
  | .probeExhausted _ => "TableFull"

def message : Fault → String
  | .emptyKey => "key span is empty"
  | .zeroStride => "element stride must be non-zero"
  | .misaligned size stride =>
      s!"span of {size} bytes is not a multiple of its stride {stride}"
  | .strideMismatch expected actual =>
      s!"span stride {actual} does not match table stride {expected}"
  | .allocation slots =>
      s!"failed to allocate a backing store of {slots} slots"
  | .capacityOverflow => "capacity computation overflowed"
  | .probeExhausted capacity => s!"probe wrapped around all {capacity} slots"

def isInternal : Fault → Bool
  | .probeExhausted _ => true
  | _ => false

/-- Faults that a caller with more memory might not have met. -/
def isAllocation : Fault → Bool
  | .allocation _ | .capacityOverflow => true
  | _ => false

def outline (fault : Fault) : Outline :=
  match fault with
  | .misaligned size stride =>
      .record fault.label
        [.field "size" (.nat size), .field "stride" (.nat stride)]
  | .strideMismatch expected actual =>
      .record fault.label
        [.field "expected" (.nat expected), .field "actual" (.nat actual)]
  | .allocation slots => .record fault.label [.field "slots" (.nat slots)]
  | .probeExhausted capacity =>
      .record fault.label [.field "capacity" (.nat capacity)]
  | .emptyKey | .zeroStride | .capacityOverflow => .atom fault.label

end Fault

end LinearProbing
