import LinearProbing.Proofs.AcceptedCalls
import LinearProbing.Proofs.BuiltTables
import LinearProbing.Proofs.EntryWalks
import LinearProbing.Proofs.LeastCapacity
import LinearProbing.Proofs.NumberedKeys

/-!
# Filling and thinning a table

A survey is two batches.  The first inserts new keys into a blank table: it
runs to its end exactly if the least capacity for all of them can be had, and
the table then has this capacity (`Capacity.climb_eq_some_iff`).  The second
removes distinct keys of the table.  No removal is refused and each finds its
key, so the count falls by one every time, and the tombstones rise by one or
stay.
-/

namespace LinearProbing

/-! ## Climbing to a capacity -/

namespace Capacity

/-- The capacity that insertions climb to is the least one for their number,
if that one fits a machine word and the limit. -/
theorem climb_eq_some_iff {limit additions capacity used size : Nat}
    (hbinary : Ring.IsBinary capacity) (hleast : least ≤ capacity)
    (hadmits : Admits capacity used) (hword : capacity < UInt64.size)
    (hlimit : capacity ≤ limit) :
    climb limit additions capacity used = some size ↔
      IsLeast (candidates capacity (used + additions)) size ∧
        size < UInt64.size ∧ size ≤ limit := by
  induction additions generalizing capacity used with
  | zero =>
      have hsame := isLeast_of_admits hbinary hadmits
      rw [climb, Option.some.injEq, Nat.add_zero]
      constructor
      · rintro rfl
        exact ⟨hsame, hword, hlimit⟩
      · rintro ⟨hsize, -⟩
        exact hsame.unique hsize
  | succ additions ih =>
      have hshift : used + (additions + 1) = used + 1 + additions := by omega
      rw [climb, hshift]
      by_cases hroom : Admits capacity (used + 1)
      · rw [if_pos hroom]
        exact ih hbinary hleast hroom hword hlimit
      · have hfull : ¬ Admits capacity (used + 1 + additions) :=
          fun hmore => hroom (hmore.mono (Nat.le_add_right _ _))
        rw [if_neg hroom, candidates_double hbinary hfull]
        by_cases hgrows : 2 * capacity < UInt64.size ∧ 2 * capacity ≤ limit
        · have hdouble : Admits (2 * capacity) (used + 1) := by
            unfold Admits least at *
            omega
          rw [if_pos hgrows]
          exact ih hbinary.double (by omega) hdouble hgrows.1 hgrows.2
        · rw [if_neg hgrows]
          constructor
          · intro hnone
            cases hnone
          · rintro ⟨hsize, hfits⟩
            have hle : 2 * capacity ≤ size := hsize.1.2.1
            exact absurd ⟨by omega, by omega⟩ hgrows

end Capacity

/-! ## Batches over renamed arguments -/

namespace Batch

variable {Argument Other : Type}

/-- The same batch with its arguments called otherwise. -/
def rename (f : Other → Argument) (batch : Batch Other) : Batch Argument :=
  { batch with
    stopped := batch.stopped.map fun (argument, fault) => (f argument, fault) }

theorem runFrom_map (f : Other → Argument)
    (operation : Table → Argument → Outcome Table Bool)
    (arguments : List Other) (table : Table) (hits misses : Nat)
    (rehashes : List Rehash) :
    runFrom operation (arguments.map f) table hits misses rehashes =
      (runFrom (fun table argument => operation table (f argument)) arguments
        table hits misses rehashes).rename f := by
  induction arguments generalizing table hits misses rehashes with
  | nil => rfl
  | cons argument arguments ih =>
      rw [List.map_cons, runFrom, runFrom]
      rcases operation table (f argument) with ⟨fault | isHit, next, rehash⟩
      · rfl
      · cases isHit with
        | true => exact ih next _ _ _
        | false => exact ih next _ _ _

theorem stopped_rename_eq_none_iff {f : Other → Argument}
    {batch : Batch Other} :
    (batch.rename f).stopped = none ↔ batch.stopped = none :=
  Option.map_eq_none_iff

theorem finished_of_stopped_eq_none {batch : Batch Argument}
    (hstopped : batch.stopped = none) : batch.finished = .ok batch := by
  rw [finished, hstopped]

theorem finished_of_stopped_ne_none {batch : Batch Argument}
    (hstopped : batch.stopped ≠ none) :
    ∃ fault, batch.finished = .error fault := by
  obtain ⟨⟨argument, fault⟩, hsome⟩ := Option.ne_none_iff_exists'.mp hstopped
  refine ⟨fault, ?_⟩
  rw [finished, hsome]

theorem runFrom_keeps {Keeps : Table → Prop}
    {operation : Table → Argument → Outcome Table Bool}
    (hstep : ∀ table argument, Keeps table →
      Keeps (operation table argument).state)
    {table : Table} (hstart : Keeps table) (arguments : List Argument)
    (hits misses : Nat) (rehashes : List Rehash) :
    Keeps
      (runFrom operation arguments table hits misses rehashes).table := by
  induction arguments generalizing table hits misses rehashes with
  | nil => exact hstart
  | cons argument arguments ih =>
      have hnext := hstep table argument hstart
      rw [runFrom]
      generalize operation table argument = outcome at hnext
      rcases outcome with ⟨fault | isHit, next, rehash⟩
      · exact hnext
      · cases isHit with
        | true => exact ih hnext _ _ _
        | false => exact ih hnext _ _ _

end Batch

/-! ## Removing keys -/

namespace Contents

variable {contents : Contents} {keySize valueSize : Nat}

/-- All keys have one size, and so have all values. -/
def Sized (keySize valueSize : Nat) (contents : Contents) : Prop :=
  ∀ key value, contents.lookup key = some value →
    key.length = keySize ∧ value.length = valueSize

theorem Sized.erase (hsized : contents.Sized keySize valueSize)
    (key : Bytes) : Sized keySize valueSize (contents.erase key) :=
  fun other value hlookup => hsized other value (lookup_of_erase hlookup)

theorem Sized.without (hsized : contents.Sized keySize valueSize)
    (keys : List Bytes) : (contents.without keys).Sized keySize valueSize := by
  induction keys generalizing contents with
  | nil => exact hsized
  | cons key keys ih => exact ih (hsized.erase key)

end Contents

namespace Table

variable {table next last : Table} {keys others : List Bytes}

/-- A table of which only these keys were removed. -/
structure Loses (table : Table) (keys : List Bytes) (next : Table) :
    Prop where
  good : next.WellFormed
  sameStrides : table.SameStrides next
  capacity_eq : next.capacity = table.capacity
  contents_eq : next.contents = table.contents.without keys
  count_eq : next.count + keys.length = table.count
  tombstones_le : next.tombstones ≤ table.tombstones + keys.length

theorem WellFormed.loses_nil (hgood : table.WellFormed) :
    table.Loses [] table :=
  ⟨hgood, .refl table, rfl, rfl, rfl, le_rfl⟩

theorem Loses.trans (hfirst : table.Loses keys next)
    (hsecond : next.Loses others last) : table.Loses (keys ++ others) last where
  good := hsecond.good
  sameStrides := hfirst.sameStrides.trans hsecond.sameStrides
  capacity_eq := hsecond.capacity_eq.trans hfirst.capacity_eq
  contents_eq := by
    rw [hsecond.contents_eq, hfirst.contents_eq]
    exact List.foldl_append.symm
  count_eq := by
    rw [List.length_append, ← hfirst.count_eq, ← hsecond.count_eq]
    omega
  tombstones_le := by
    have hearlier := hfirst.tombstones_le
    have hlater := hsecond.tombstones_le
    rw [List.length_append]
    omega

/-- The removal of a key that is there finds it and leaves at most one
tombstone. -/
theorem WellFormed.exists_loses (hgood : table.WellFormed) {key : View}
    (haccept : key.IsKey table.keyStride)
    (hmem : key.bytes ∈ table.contents) :
    ∃ entry next, table.erase key = .done next (some entry) ∧
      table.Loses [key.bytes] next := by
  have hcase := hgood.eraseCase key
  have hnext := hcase.wellFormed hgood
  have hsame := hcase.sameStrides
  generalize table.erase key = outcome at hcase hnext hsame
  cases hcase with
  | rejected hfault => exact absurd haccept (not_isKey_of_fault hfault)
  | missing _ habsent => exact absurd (mem_contents.mp hmem) habsent
  | @vacated index entry _ hslot hkey _ =>
      have hcount := hgood.count_pos hslot
      refine ⟨entry, _, rfl, hnext, hsame, capacity_vacate _ _, ?_, ?_, ?_⟩
      · rw [← hkey]
        exact hgood.contents_vacate hslot
      · exact Nat.sub_add_cancel hcount
      · exact Nat.le_succ _
  | @buried index entry _ hslot hkey _ =>
      have hcount := hgood.count_pos hslot
      refine ⟨entry, _, rfl, hnext, hsame, capacity_bury _ _, ?_, ?_, ?_⟩
      · rw [← hkey]
        exact hgood.contents_bury hslot
      · exact Nat.sub_add_cancel hcount
      · exact le_rfl

/-- A batch that removes distinct keys of the table finds every one. -/
theorem WellFormed.runFrom_erase (hgood : table.WellFormed)
    {keys : List View} (haccept : ∀ key ∈ keys, key.IsKey table.keyStride)
    (hnodup : (keys.map View.bytes).Nodup)
    (hmem : ∀ key ∈ keys, key.bytes ∈ table.contents)
    (hits misses : Nat) (rehashes : List Rehash) :
    let batch := Batch.runFrom
      (fun table key => (table.erase key).map Option.isSome) keys table hits
      misses rehashes
    batch.stopped = none ∧ batch.hits = hits + keys.length ∧
      table.Loses (keys.map View.bytes) batch.table := by
  induction keys generalizing table hits rehashes with
  | nil => exact ⟨rfl, rfl, hgood.loses_nil⟩
  | cons key keys ih =>
      rw [List.forall_mem_cons] at haccept hmem
      rw [List.map_cons, List.nodup_cons] at hnodup
      obtain ⟨entry, next, herase, hloses⟩ :=
        hgood.exists_loses haccept.1 hmem.1
      have haccept' : ∀ later ∈ keys, later.IsKey next.keyStride := by
        rw [hloses.sameStrides.key_eq]
        exact haccept.2
      have hmem' : ∀ later ∈ keys, later.bytes ∈ next.contents := by
        intro later hlater
        have hne : later.bytes ≠ key.bytes := by
          intro heq
          exact hnodup.1 (heq ▸ List.mem_map_of_mem hlater)
        rw [hloses.contents_eq]
        exact Finmap.mem_erase.mpr ⟨hne, hmem.2 later hlater⟩
      have hturn : (table.erase key).map Option.isSome =
          ⟨.ok true, next, none⟩ := by
        rw [herase]
        rfl
      obtain ⟨hstopped, hhits, hrest⟩ :=
        ih hloses.good haccept' hnodup.2 hmem' (hits + 1) (rehashes ++ [])
      have hlength : hits + 1 + keys.length = hits + (key :: keys).length := by
        rw [List.length_cons]
        omega
      rw [Batch.runFrom, hturn]
      exact ⟨hstopped, hhits.trans hlength, hloses.trans hrest⟩

end Table

/-! ## The two batches of a survey -/

namespace Survey

open Table (Built Loses Storable)

variable {limit entries every : Nat} {table : Table}

/-- The key and the value of a number, as they are inserted. -/
def record (i : Nat) : View × View :=
  (.plain (key i), .plain (value i))

def records (entries : Nat) : List Entry :=
  (List.range entries).map fun i => Table.entryOf (record i)

theorem map_key_records (entries : Nat) :
    (records entries).map Entry.key = (List.range entries).map key := by
  rw [records, List.map_map]
  rfl

theorem storable_record (i : Nat) : Storable 1 1 (record i) where
  key_aligned := View.aligned_plain _
  value_aligned := View.aligned_plain _
  key_ne_nil := key_ne_nil i
  keyStride_eq := rfl
  valueStride_eq := rfl

theorem nodup_records (hword : entries ≤ 2 ^ 64) :
    ((records entries).map Entry.key).Nodup := by
  rw [map_key_records]
  apply nodup_keys List.nodup_range
  intro i hmem
  exact (List.mem_range.mp hmem).trans_le hword

/-- A blank table of the least capacity. -/
def start : Table :=
  ⟨Slots.blank Capacity.least, 0, 0, 1, 1⟩

theorem built_start : start.Built [] :=
  Table.built_blank Table.reachable_blank.wellFormed

theorem climb_least_eq_some_iff {size : Nat}
    (hlimit : Capacity.least ≤ limit) :
    Capacity.climb limit entries Capacity.least 0 = some size ↔
      IsLeast (Capacity.candidates Capacity.least entries) size ∧
        size < UInt64.size ∧ size ≤ limit := by
  have hbinary : Ring.IsBinary Capacity.least := ⟨3, rfl⟩
  have hadmits : Capacity.Admits Capacity.least 0 := Nat.zero_le _
  rw [Capacity.climb_eq_some_iff hbinary le_rfl hadmits (by decide) hlimit,
    Nat.zero_add]

/-- All numbers are filled in, or there is no capacity to climb to. -/
theorem fill_cases (limit : Nat) (hword : entries ≤ 2 ^ 64) :
    let filled := fill limit entries start
    let climbed := Capacity.climb limit entries Capacity.least 0
    (filled.stopped = none ∧ climbed = some filled.table.capacity ∧
        filled.table.Built (records entries)) ∨
      (filled.stopped ≠ none ∧ climbed = none) := by
  intro filled climbed
  have hstorable : ∀ pair ∈ (List.range entries).map record,
      Storable start.keyStride start.valueStride pair := by
    intro pair hmem
    obtain ⟨i, -, rfl⟩ := List.mem_map.mp hmem
    exact storable_record i
  have hrecords : [] ++ ((List.range entries).map record).map
      Table.entryOf = records entries := by
    rw [List.nil_append, List.map_map]
    rfl
  have hcases := built_start.runFrom_cases limit hstorable
    (hrecords ▸ nodup_records hword) 0 0 []
  dsimp only at hcases
  rw [Batch.runFrom_map, List.length_map, List.length_range, hrecords,
    ne_eq, Batch.stopped_rename_eq_none_iff] at hcases
  exact hcases

/-- What has become of a blank table when all numbers are filled in and some
of them are removed. -/
structure Leaves (entries removed capacity : Nat) (table : Table) :
    Prop where
  good : table.WellFormed
  capacity_eq : table.capacity = capacity
  count_eq : table.count = entries - removed
  tombstones_le : table.tombstones ≤ removed
  sized : table.contents.Sized 20 8

theorem suits_fill (limit entries : Nat) :
    (fill limit entries start).table.Suits 1 1 := by
  have hstart : start.Suits 1 1 :=
    ⟨Table.reachable_blank.wellFormed, rfl, rfl⟩
  apply Batch.runFrom_keeps _ hstart
  intro table i hsuits
  exact hsuits.write (View.aligned_plain _) (View.aligned_plain _) limit

theorem mem_contents_iff (hbuilt : table.Built (records entries))
    {bytes : Bytes} :
    bytes ∈ table.contents ↔ ∃ i < entries, key i = bytes := by
  rw [Table.mem_contents, (hbuilt.perm.map Entry.key).mem_iff,
    map_key_records]
  simp

theorem leaves_filled (hbuilt : table.Built (records entries)) :
    Leaves entries 0 table.capacity table where
  good := hbuilt.good
  capacity_eq := rfl
  count_eq := by
    rw [hbuilt.count_eq, records, List.length_map, List.length_range,
      Nat.sub_zero]
  tombstones_le := hbuilt.tombstones_eq.le
  sized := by
    intro bytes stored hlookup
    obtain ⟨index, entry, hslot, rfl, rfl⟩ :=
      hbuilt.good.lookup_eq_some_iff.mp hlookup
    have hmem : entry ∈ records entries :=
      hbuilt.perm.mem_iff.mp (Slots.mem_entries.mpr ⟨index, hslot⟩)
    obtain ⟨i, -, rfl⟩ := List.mem_map.mp hmem
    refine ⟨length_key i, ?_⟩
    change ((View.plain (value i)).stored.getD []).length = 8
    rw [View.stored_getD]
    exact length_value i

/-- Every multiple is found and removed. -/
theorem thin_loses (hbuilt : table.Built (records entries))
    (hstride : table.keyStride = 1) (hword : entries ≤ 2 ^ 64)
    (hevery : 0 < every) :
    let thinned := thin entries every table
    thinned.stopped = none ∧ thinned.hits = entries ⌈/⌉ every ∧
      table.Loses ((multiples entries every).map key) thinned.table := by
  intro thinned
  have hlower : ∀ i ∈ multiples entries every, i < 2 ^ 64 :=
    fun i hmem => (lt_of_mem_multiples hmem).trans_le hword
  have hbytes : ((multiples entries every).map fun i =>
      View.plain (key i)).map View.bytes =
        (multiples entries every).map key := by
    rw [List.map_map]
    rfl
  have haccept : ∀ view ∈ (multiples entries every).map fun i =>
      View.plain (key i), view.IsKey table.keyStride := by
    intro view hmem
    obtain ⟨i, -, rfl⟩ := List.mem_map.mp hmem
    exact hstride ▸ isKey_plain_key i
  have hmem : ∀ view ∈ (multiples entries every).map fun i =>
      View.plain (key i), view.bytes ∈ table.contents := by
    intro view hview
    obtain ⟨i, hi, rfl⟩ := List.mem_map.mp hview
    exact (mem_contents_iff hbuilt).mpr ⟨i, lt_of_mem_multiples hi, rfl⟩
  have hrun := hbuilt.good.runFrom_erase haccept
    (hbytes ▸ nodup_keys (nodup_multiples entries hevery) hlower) hmem 0 0 []
  dsimp only at hrun
  rwa [Batch.runFrom_map, Batch.stopped_rename_eq_none_iff, hbytes,
    List.length_map, length_multiples entries hevery, Nat.zero_add] at hrun

theorem leaves_thinned {next : Table} (hbuilt : table.Built (records entries))
    (hevery : 0 < every)
    (hloses : table.Loses ((multiples entries every).map key) next) :
    Leaves entries (entries ⌈/⌉ every) table.capacity next := by
  have hfilled := leaves_filled hbuilt
  have hcount := hloses.count_eq
  have htombstones := hloses.tombstones_le
  rw [List.length_map, length_multiples entries hevery] at hcount htombstones
  rw [hfilled.count_eq, Nat.sub_zero] at hcount
  rw [hbuilt.tombstones_eq, Nat.zero_add] at htombstones
  have hsized := hfilled.sized.without ((multiples entries every).map key)
  rw [← hloses.contents_eq] at hsized
  exact ⟨hloses.good, hloses.capacity_eq, Nat.eq_sub_of_add_eq hcount,
    htombstones, hsized⟩

end Survey

end LinearProbing
