import LinearProbing.Codec.Basic
import LinearProbing.Table.Cursor
import LinearProbing.Table.Update

/-!
# Typed maps

A map from keys to values is a table of their encodings.  What the codecs do
not read back is still stored: such a value reads as absent, and walks over
the map pass by what cannot be read.
-/

namespace LinearProbing

variable {Key Value : Type}

structure TypedMap (keys : Codec Key) (values : Codec Value) where
  table : Table

namespace TypedMap

variable {keys : Codec Key} {values : Codec Value}

def create (limit room : Nat) : Except Fault (TypedMap keys values) :=
  (Table.create limit room keys.width values.width).map mk

def length (map : TypedMap keys values) : Nat :=
  map.table.count

def isEmpty (map : TypedMap keys values) : Bool :=
  map.table.isEmpty

def capacity (map : TypedMap keys values) : Nat :=
  map.table.capacity

def clear (map : TypedMap keys values) : TypedMap keys values :=
  ⟨map.table.clear⟩

def reserve (limit : Nat) (map : TypedMap keys values) (extra : Nat) :
    Outcome (TypedMap keys values) Unit :=
  (map.table.reserve limit extra).mapState mk

/-- Answers the previous value of the key. -/
def insert (limit : Nat) (map : TypedMap keys values) (key : Key)
    (value : Value) : Outcome (TypedMap keys values) (Option Value) :=
  let outcome := map.table.write limit (keys.view key) (values.view value)
  (outcome.mapState mk).map fun written =>
    match written with
    | .added => none
    | .replaced previous => previous.bind values.decode

def get (map : TypedMap keys values) (key : Key) :
    Except Fault (Option Value) :=
  (map.table.get (keys.view key)).map fun found =>
    found.bind fun view => values.decode view.bytes

def contains (map : TypedMap keys values) (key : Key) : Bool :=
  map.table.contains (keys.view key)

def erase (map : TypedMap keys values) (key : Key) :
    Outcome (TypedMap keys values) (Option Value) :=
  ((map.table.erase (keys.view key)).mapState mk).map fun removed =>
    removed.bind fun entry => entry.value.bind values.decode

def readKey (keys : Codec Key) (entry : Entry) : Option Key :=
  keys.decode entry.key

def readValue (values : Codec Value) (entry : Entry) : Option Value :=
  entry.value.bind values.decode

def readPair (keys : Codec Key) (values : Codec Value) (entry : Entry) :
    Option (Key × Value) :=
  match readKey keys entry, readValue values entry with
  | some key, some value => some (key, value)
  | _, _ => none

def toList (map : TypedMap keys values) : List (Key × Value) :=
  map.table.entries.filterMap (readPair keys values)

def keyList (map : TypedMap keys values) : List Key :=
  map.table.entries.filterMap (readKey keys)

def valueList (map : TypedMap keys values) : List Value :=
  map.table.entries.filterMap (readValue values)

def outline (keyOutline : Key → Outline) (valueOutline : Value → Outline)
    (map : TypedMap keys values) : Outline :=
  .braces (map.toList.map fun (key, value) =>
    .pair (keyOutline key) (valueOutline value))

end TypedMap

end LinearProbing
