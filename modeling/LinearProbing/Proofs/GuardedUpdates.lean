import LinearProbing.Proofs.GuardedSearch
import LinearProbing.Proofs.TableUpdates

/-!
# Guarded lookups and updates

The operations on a table with their checks.  Wherever a search has landed,
the slot is read again, and a slot that holds no entry where one must be is a
breach.  A move of all entries ends with the check that none was lost, and a
value is handed out only in whole elements.

On a well-formed table each guarded operation is the plain one.
-/

namespace LinearProbing.Guarded

/-! ## Growth -/

/-- Settles the entries of a list of slots and counts them. -/
noncomputable def settleAll (slots : Slots) (count : Nat) :
    List Slot → Guarded (Slots × Nat)
  | [] => pure (slots, count)
  | .empty :: cells | .tombstone :: cells => settleAll slots count cells
  | .occupied entry :: cells => do
      let index ← vacancy slots entry.hash
      let settled ← writeSlot slots index (.occupied entry)
      let more ← add count 1
      settleAll settled more cells

noncomputable def moveInto (table : Table) (fresh : Slots) :
    Guarded (Table × Rehash) := do
  let (slots, moved) ← settleAll fresh 0 table.slots.toList
  demand (moved = table.count)
  pure
    ({ table with slots := slots, count := moved, tombstones := 0 },
      { before := table.capacity
        after := slots.size
        moved := moved
        reclaimed := table.tombstones })

/-- Grows the table, if that is needed for `used` slots in use. -/
noncomputable def makeRoom (limit : Nat) (table : Table) (used : Nat) :
    Guarded (Except Fault (Table × Option Rehash)) := do
  match ← fit table.capacity used with
  | .error fault => pure (.error fault)
  | .ok capacity =>
      if capacity = table.capacity then
        pure (.ok (table, none))
      else
        match Slots.allocate limit capacity with
        | .error fault => pure (.error fault)
        | .ok fresh => do
            let (grown, rehash) ← moveInto table fresh
            pure (.ok (grown, some rehash))

noncomputable def reserve (limit : Nat) (table : Table) (extra : Nat) :
    Guarded (Outcome Table Unit) := do
  let used ← add table.count table.tombstones
  if UInt64.size ≤ used + extra then
    pure (.refused table .capacityOverflow)
  else
    match ← makeRoom limit table (used + extra) with
    | .error fault => pure (.refused table fault)
    | .ok (grown, rehash) => pure ⟨.ok (), grown, rehash⟩

/-! ## Lookups -/

def locate (table : Table) (key : Bytes) : Guarded (Except Fault Spot) :=
  probe table.slots key (fnv1a key)

def valueView (table : Table) (entry : Entry) : Guarded View :=
  match entry.value with
  | none => pure (.empty table.valueStride)
  | some bytes => do
      demand (bytes.length % table.valueStride = 0)
      pure ⟨bytes, table.valueStride⟩

def get (table : Table) (key : View) : Guarded (Except Fault (Option View)) :=
  match table.keyFault? key with
  | some fault => pure (.error fault)
  | none => do
      match ← locate table key.bytes with
      | .error fault => pure (.error fault)
      | .ok (.vacant _) => pure (.ok none)
      | .ok (.found index) =>
          match ← readSlot table.slots index with
          | .empty | .tombstone => throw (.stray index)
          | .occupied entry => do
              let view ← valueView table entry
              pure (.ok (some view))

def contains (table : Table) (key : View) : Guarded Bool := do
  match ← get table key with
  | .ok (some _) => pure true
  | .ok none | .error _ => pure false

/-! ## Updates -/

/-- Makes room for an entry that is in the table already, or takes it back. -/
noncomputable def retain (limit : Nat) (table : Table) (index : Nat) :
    Guarded (Outcome Table Written) := do
  let used ← add table.count table.tombstones
  match ← makeRoom limit table used with
  | .ok (grown, rehash) => pure ⟨.ok .added, grown, rehash⟩
  | .error fault => do
      let slots ← writeSlot table.slots index .empty
      let count ← sub table.count 1
      pure (.refused { table with slots := slots, count := count } fault)

noncomputable def write (limit : Nat) (table : Table) (key value : View) :
    Guarded (Outcome Table Written) :=
  match table.pairFault? key value with
  | some fault => pure (.refused table fault)
  | none => do
      match ← locate table key.bytes with
      | .error fault => pure (.refused table fault)
      | .ok (.found index) =>
          match ← readSlot table.slots index with
          | .empty | .tombstone => throw (.stray index)
          | .occupied entry => do
              let slots ← writeSlot table.slots index
                (.occupied { entry with value := value.stored })
              pure (.done { table with slots := slots }
                (.replaced entry.value))
      | .ok (.vacant index) => do
          let slots ← writeSlot table.slots index
            (.occupied (Entry.ofViews key value))
          let count ← add table.count 1
          retain limit { table with slots := slots, count := count } index

noncomputable def insert (limit : Nat) (table : Table) (key value : View) :
    Guarded (Outcome Table Bool) := do
  let outcome ← write limit table key value
  pure (outcome.map Written.isNew)

def erase (table : Table) (key : View) :
    Guarded (Outcome Table (Option Entry)) :=
  match table.keyFault? key with
  | some fault => pure (.refused table fault)
  | none => do
      match ← locate table key.bytes with
      | .error fault => pure (.refused table fault)
      | .ok (.vacant _) => pure (.done table none)
      | .ok (.found index) => do
          let mask ← sub table.capacity 1
          let next ← add index 1
          let successor ← readSlot table.slots (next &&& mask)
          match ← readSlot table.slots index with
          | .empty | .tombstone => throw (.stray index)
          | .occupied entry => do
              let slots ← writeSlot table.slots index .empty
              let count ← sub table.count 1
              if successor.isEmpty then
                pure (.done { table with slots := slots, count := count }
                  (some entry))
              else do
                let buried ← writeSlot slots index .tombstone
                let tombstones ← add table.tombstones 1
                pure (.done
                  { table with
                    slots := buried
                    count := count
                    tombstones := tombstones }
                  (some entry))

variable {table grown : Table} {slots fresh settled : Slots}
  {key value : View}

/-! ## Growth is as guarded -/

theorem settleAll_eq (hbinary : Ring.IsBinary slots.size)
    (hword : slots.size < UInt64.size) {cells : List Slot} {count : Nat}
    (hsettle : slots.settleAll (cells.filterMap Slot.entry?) = .ok settled)
    (hcount : count + (cells.filterMap Slot.entry?).length < UInt64.size) :
    settleAll slots count cells =
      pure (settled, count + (cells.filterMap Slot.entry?).length) := by
  induction cells generalizing slots count with
  | nil =>
      simp only [List.filterMap_nil] at hsettle ⊢
      have hsame : slots = settled := Except.ok.inj hsettle
      rw [hsame]
      rfl
  | cons cell cells ih =>
      cases cell with
      | empty => exact ih hbinary hword hsettle hcount
      | tombstone => exact ih hbinary hword hsettle hcount
      | occupied entry =>
          have hcons : (Slot.occupied entry :: cells).filterMap Slot.entry? =
              entry :: cells.filterMap Slot.entry? := rfl
          rw [hcons] at hsettle hcount ⊢
          rw [List.length_cons] at hcount ⊢
          cases hfound : slots.vacancy entry.hash with
          | error fault =>
              have hstuck : slots.settle entry = .error fault := by
                rw [Slots.settle, hfound]
              rw [Slots.settleAll, List.foldlM_cons, hstuck] at hsettle
              simp [bind, Except.bind] at hsettle
          | ok index =>
              have hstep : slots.settle entry =
                  .ok (slots.put index (.occupied entry)) := by
                rw [Slots.settle, hfound]
              obtain ⟨hindex, hguarded⟩ := vacancy_eq hbinary hword hfound
              rw [Slots.settleAll_cons hstep] at hsettle
              have hnext : count + 1 +
                  (cells.filterMap Slot.entry?).length < UInt64.size := by
                omega
              have hrest := ih (by rwa [Slots.size_put])
                (by rwa [Slots.size_put]) hsettle hnext
              rw [settleAll, hguarded, pure_bind, writeSlot_eq hindex,
                pure_bind, add_eq (by omega), pure_bind, hrest,
                Nat.add_right_comm, Nat.add_assoc count]

theorem moveInto_eq (hlength : table.slots.entries.length = table.count)
    (hcount : table.count < UInt64.size)
    (hbinary : Ring.IsBinary fresh.size) (hword : fresh.size < UInt64.size)
    {rehash : Rehash}
    (hmove : table.moveInto fresh = .ok (grown, rehash)) :
    moveInto table fresh = pure (grown, rehash) := by
  rw [← hlength] at hcount
  rw [Table.moveInto] at hmove
  cases hsettle : fresh.settleAll table.slots.entries with
  | error fault => simp [hsettle] at hmove
  | ok settled =>
      have hall : settleAll fresh 0 table.slots.toList =
          pure (settled, table.slots.entries.length) := by
        have hbound : 0 + table.slots.entries.length < UInt64.size := by
          rwa [Nat.zero_add]
        have hmoved := settleAll_eq hbinary hword hsettle hbound
        rwa [Nat.zero_add] at hmoved
      rw [hsettle] at hmove
      rw [moveInto, hall, pure_bind]
      dsimp only
      rw [demand_eq hlength, pure_bind]
      exact congrArg pure (Except.ok.inj hmove)

theorem makeRoom_eq (hgood : table.Consistent) (limit extra : Nat) :
    makeRoom limit table (table.used + extra) =
      pure (table.makeRoom limit extra) := by
  have hpos : 0 < table.capacity := hgood.sound.binary.pos
  rw [makeRoom, fit_eq hpos, pure_bind, Table.makeRoom]
  cases hfit : Capacity.fit table.capacity (table.used + extra) with
  | error fault => rfl
  | ok fitted =>
      dsimp only
      by_cases heq : fitted = table.capacity
      · rw [if_pos heq, if_pos heq]
      · rw [if_neg heq, if_neg heq, Slots.allocate]
        by_cases hlimit : limit < fitted
        · rw [if_pos hlimit]
        · have hfits := Capacity.fits_of_fit hfit
          have hbinary := hfits.isBinary hgood.sound.binary
          have hroom : table.count ≤ fitted := by
            have hadmits : 4 * (table.used + extra) ≤ 3 * fitted :=
              hfits.admits
            unfold Table.used at hadmits
            omega
          have hlength := hgood.length_entries
          obtain ⟨grown, -, hmove⟩ :=
            Table.moveInto_blank hgood.sound.nodup_keys hlength hbinary hroom
          have hword := hfits.lt_wordSize hgood.lt_wordSize
          have hguarded := moveInto_eq hlength (by omega)
            (by rwa [Slots.size_blank]) (by rwa [Slots.size_blank]) hmove
          simp only [if_neg hlimit, hmove, hguarded, pure_bind]

/-- A sum that no word can hold is more than any capacity admits, so the
check of the sum is not what decides. -/
theorem makeRoom_of_overflow (hgood : table.Consistent) {limit extra : Nat}
    (hover : UInt64.size ≤ table.used + extra) :
    table.makeRoom limit extra = .error .capacityOverflow := by
  rw [Table.makeRoom]
  cases hfit : Capacity.fit table.capacity (table.used + extra) with
  | error fault => rw [Capacity.fitWithin_error hfit]
  | ok fitted =>
      have hfits := Capacity.fits_of_fit hfit
      have hadmits : 4 * (table.used + extra) ≤ 3 * fitted := hfits.admits
      have hword := hfits.lt_wordSize hgood.lt_wordSize
      omega

theorem reserve_eq (hgood : table.Consistent) (limit extra : Nat) :
    reserve limit table extra = pure (table.reserve limit extra) := by
  have hused : table.count + table.tombstones < UInt64.size :=
    hgood.used_le.trans_lt hgood.lt_wordSize
  rw [reserve, add_eq hused, pure_bind, Table.reserve]
  by_cases hover : UInt64.size ≤ table.count + table.tombstones + extra
  · rw [if_pos hover, makeRoom_of_overflow hgood hover]
  · have hroom := makeRoom_eq hgood limit extra
    unfold Table.used at hroom
    rw [if_neg hover, hroom, pure_bind]
    cases table.makeRoom limit extra <;> rfl

/-! ## Lookups are as guarded -/

theorem locate_eq (hgood : table.WellFormed) (key : Bytes) :
    locate table key = pure ((table.locate key).map Landing.spot) :=
  probe_eq hgood.sound.binary hgood.lt_wordSize key (fnv1a key)

theorem valueView_eq (hgood : table.WellFormed) {index : Nat} {entry : Entry}
    (hslot : table.slots.get index = .occupied entry) :
    valueView table entry = pure (table.valueView entry) := by
  have hfits := hgood.fits entry (Slots.mem_entries.mpr ⟨index, hslot⟩)
  unfold valueView Table.valueView Entry.valueBytes
  cases hvalue : entry.value with
  | none => rfl
  | some bytes =>
      have hwhole : bytes.length % table.valueStride = 0 :=
        Nat.mod_eq_zero_of_dvd (hfits.value_fits bytes hvalue).2
      simp only [demand_eq hwhole, pure_bind]
      rfl

theorem get_eq (hgood : table.WellFormed) (key : View) :
    get table key = pure (table.get key) := by
  unfold get Table.get Table.entry?
  cases table.keyFault? key with
  | some fault => rfl
  | none =>
      simp only [locate_eq hgood, pure_bind]
      rcases hgood.locate_cases key.bytes with
        ⟨index, entry, hslot, -, hlocate⟩ | ⟨-, step, -, hlocate⟩
      · have hindex := Slots.lt_size_of_occupied hslot
        simp only [hlocate, Except.map, Landing.spot, readSlot_eq hindex,
          pure_bind, hslot, valueView_eq hgood hslot, Option.map_some]
      · simp only [hlocate, Except.map, Landing.spot, Option.map_none]

theorem contains_eq (hgood : table.WellFormed) (key : View) :
    contains table key = pure (table.contains key) := by
  unfold contains Table.contains
  rw [get_eq hgood, pure_bind]
  rcases table.get key with fault | _ | view <;> rfl

/-! ## Updates are as guarded -/

theorem retain_eq (hgood : table.Consistent) {index : Nat}
    (hindex : index < table.slots.size) (hcount : 0 < table.count)
    (limit : Nat) :
    retain limit table index =
      pure
        (match table.makeRoom limit 0 with
        | .error fault => .refused (table.vacate index) fault
        | .ok (grown, rehash) => ⟨.ok .added, grown, rehash⟩) := by
  have hused : table.count + table.tombstones < UInt64.size :=
    hgood.used_le.trans_lt hgood.lt_wordSize
  have hroom := makeRoom_eq hgood limit 0
  unfold Table.used at hroom
  rw [Nat.add_zero] at hroom
  rw [retain, add_eq hused, pure_bind, hroom, pure_bind]
  cases table.makeRoom limit 0 with
  | ok grown => rfl
  | error fault =>
      simp only [writeSlot_eq hindex, sub_eq hcount, pure_bind]
      rfl

theorem write_eq (hgood : table.WellFormed) (hkey : key.Aligned)
    (hvalue : value.Aligned) (limit : Nat) :
    write limit table key value = pure (table.write limit key value) := by
  unfold write Table.write
  cases haccept : table.pairFault? key value with
  | some fault => rfl
  | none =>
      simp only [locate_eq hgood, pure_bind]
      rcases hgood.locate_cases key.bytes with
        ⟨index, entry, hslot, -, hlocate⟩ |
        ⟨habsent, step, hfirst, hlocate⟩
      · have hindex := Slots.lt_size_of_occupied hslot
        simp only [hlocate, Except.map, Landing.spot, readSlot_eq hindex,
          pure_bind, hslot, writeSlot_eq hindex]
      · have hindex : Ring.walk table.capacity (fnv1a key.bytes) step <
            table.slots.size := Ring.walk_lt hgood.sound.binary _ _
        have hcount : table.count + 1 < UInt64.size := by
          have hused := hgood.used_lt
          have hword := hgood.lt_wordSize
          unfold Table.used at hused
          omega
        have hseat : (table.seat key value step).Consistent :=
          hgood.toConsistent.seat hkey hvalue haccept habsent hfirst
        have hplace : Ring.walk table.capacity (fnv1a key.bytes) step <
            (table.seat key value step).slots.size :=
          hindex.trans_eq (Table.capacity_seat step).symm
        have hretain := retain_eq hseat hplace (Nat.succ_pos _) limit
        simp only [hlocate, Except.map, Landing.spot, pure_bind,
          writeSlot_eq hindex, add_eq hcount]
        exact hretain

theorem insert_eq (hgood : table.WellFormed) (hkey : key.Aligned)
    (hvalue : value.Aligned) (limit : Nat) :
    insert limit table key value = pure (table.insert limit key value) := by
  rw [insert, write_eq hgood hkey hvalue, pure_bind, Table.insert]

theorem erase_eq (hgood : table.WellFormed) (key : View) :
    erase table key = pure (table.erase key) := by
  unfold erase Table.erase
  cases table.keyFault? key with
  | some fault => rfl
  | none =>
      simp only [locate_eq hgood, pure_bind]
      rcases hgood.locate_cases key.bytes with
        ⟨index, entry, hslot, -, hlocate⟩ | ⟨-, step, -, hlocate⟩
      · have hindex := Slots.lt_size_of_occupied hslot
        have hpos : 0 < table.capacity := hgood.sound.binary.pos
        have hword : index + 1 < UInt64.size :=
          (Nat.succ_le_of_lt hindex).trans_lt hgood.lt_wordSize
        have hnext : index + 1 &&& table.capacity - 1 < table.slots.size :=
          Ring.wrap_lt hgood.sound.binary (index + 1)
        have hcount := hgood.count_pos hslot
        have hgraves : table.tombstones + 1 < UInt64.size := by
          have hused := hgood.used_lt
          have hcapacity := hgood.lt_wordSize
          unfold Table.used at hused
          omega
        have hsize : index < (table.slots.put index .empty).size := by
          rwa [Slots.size_put]
        simp only [hlocate, Except.map, Landing.spot, pure_bind,
          sub_eq hpos, add_eq hword, readSlot_eq hnext,
          readSlot_eq hindex, hslot, writeSlot_eq hindex, sub_eq hcount,
          writeSlot_eq hsize, add_eq hgraves, Slots.put_put]
        exact (apply_ite pure _ _ _).symm
      · simp only [hlocate, Except.map, Landing.spot]

end LinearProbing.Guarded
