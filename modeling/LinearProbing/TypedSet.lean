import LinearProbing.Codec.Basic
import LinearProbing.Table.Cursor
import LinearProbing.Table.Update

/-!
# Typed sets

A set is a table of the encodings of its members, stored without values.
Two sets are compared by their sizes and by looking up in the right one every
member of the left one that can be read back.
-/

namespace LinearProbing

variable {Member : Type}

structure TypedSet (members : Codec Member) where
  table : Table

namespace TypedSet

variable {members : Codec Member}

def create (limit room : Nat) : Except Fault (TypedSet members) :=
  (Table.create limit room members.width 1).map mk

def length (set : TypedSet members) : Nat :=
  set.table.count

def isEmpty (set : TypedSet members) : Bool :=
  set.table.isEmpty

def capacity (set : TypedSet members) : Nat :=
  set.table.capacity

def clear (set : TypedSet members) : TypedSet members :=
  ⟨set.table.clear⟩

/-- Answers whether the member is new. -/
def insert (limit : Nat) (set : TypedSet members) (member : Member) :
    Outcome (TypedSet members) Bool :=
  (set.table.insert limit (members.view member) (.plain [])).mapState mk

def contains (set : TypedSet members) (member : Member) : Bool :=
  set.table.contains (members.view member)

def erase (set : TypedSet members) (member : Member) :
    Outcome (TypedSet members) Bool :=
  ((set.table.erase (members.view member)).mapState mk).map Option.isSome

def toList (set : TypedSet members) : List Member :=
  set.table.entries.filterMap fun entry => members.decode entry.key

def equals (left right : TypedSet members) : Bool :=
  left.length == right.length && left.toList.all right.contains

def outline (memberOutline : Member → Outline) (set : TypedSet members) :
    Outline :=
  .braces (set.toList.map memberOutline)

end TypedSet

end LinearProbing
