import LinearProbing.Statistics
import LinearProbing.Table.Batch

/-!
# Surveys

A survey fills a table with numbered keys, may remove every n-th of them
again, and reports how the table has fared.  If keys are to be removed it
counts them in 32 bits with a sign, so the count turns negative behind
`2 ^ 31 - 1`.
-/

namespace LinearProbing

structure Survey where
  removed : Option Int32
  table : Table

namespace Survey

/-- The number in sixteen hexadecimal digits behind `key_`. -/
def key (i : Nat) : Bytes :=
  ("key_".toList ++ Hex.digits .upper 16 i).map fun c =>
    UInt8.ofNat c.toNat

def value (i : Nat) : Bytes :=
  LittleEndian.digits 8 i

def fill (limit entries : Nat) (table : Table) : Batch Nat :=
  Batch.run
    (fun table i => table.insert limit (.plain (key i)) (.plain (value i)))
    table (List.range entries)

/-- The multiples of `every` below `entries`. -/
def multiples (entries every : Nat) : List Nat :=
  (List.range ((entries + (every - 1)) / every)).map (every * ·)

def thin (entries every : Nat) (table : Table) : Batch Nat :=
  Batch.run
    (fun table i => (table.erase (.plain (key i))).map Option.isSome)
    table (multiples entries every)

/-- No key is to be removed when `every` is zero. -/
def run (limit entries every : Nat) (table : Table) : Except Fault Survey :=
  match (fill limit entries table).finished with
  | .error fault => .error fault
  | .ok filled =>
      if every = 0 then
        .ok ⟨none, filled.table⟩
      else
        match (thin entries every filled.table).finished with
        | .error fault => .error fault
        | .ok thinned => .ok ⟨some (Int32.ofNat thinned.hits), thinned.table⟩

/-- What is said of the table before its probes are charted. -/
def summary (survey : Survey) : List String :=
  (survey.removed.map fun n => s!"Removed {n} entries").toList ++
    [s!"Inserted {survey.table.count} entries, " ++
        s!"final capacity {survey.table.capacity}",
      "Final load factor: " ++
        Statistics.percent survey.table.loadFactor]

def lines (survey : Survey) : List String :=
  survey.summary ++ survey.table.histogram.lines ++
    (Statistics.ofTable survey.table).lines

end Survey

/-- What a survey prints, up to its end or to the fault that stopped it. -/
structure Report where
  lines : List String
  fault : Option Fault

namespace Report

def ofSurvey (limit entries every : Nat) : Report :=
  let opening := s!"Creating HashTable for {entries} entries"
  match Table.create limit 0 1 1 with
  | .error fault => ⟨[opening], some fault⟩
  | .ok table =>
      let start := s!"Initial capacity: {table.capacity}"
      match Survey.run limit entries every table with
      | .error fault => ⟨[opening, start], some fault⟩
      | .ok survey => ⟨opening :: start :: survey.lines, none⟩

end Report

end LinearProbing
