import LinearProbing.Proofs.TableGrowth
import LinearProbing.Table.Update

/-!
# What one update can do

Each operation on a well-formed table has a few cases, and each case says
which slot was touched, what was answered and what the table became.  The
cases are complete, so later arguments split on them and never open an
operation again.  Every case leaves the table well formed.
-/

namespace LinearProbing.Table

variable {table : Table} {key value : View} {limit extra : Nat}

theorem keyFault?_eq_none_iff :
    table.keyFault? key = none ↔
      key.bytes ≠ [] ∧ key.stride = table.keyStride := by
  unfold keyFault? View.isEmpty strideFault?
  cases key.bytes with
  | nil => simp
  | cons head tail => simp

theorem pairFault?_eq_none_iff :
    table.pairFault? key value = none ↔
      table.keyFault? key = none ∧ value.stride = table.valueStride := by
  unfold pairFault? strideFault?
  cases table.keyFault? key with
  | some fault => simp
  | none => simp

/-! ## Looking up -/

inductive LookupCase (table : Table) (key : View) :
    Except Fault (Option Entry) → Prop
  | rejected {fault : Fault} (hfault : table.keyFault? key = some fault) :
      LookupCase table key (.error fault)
  | missing (haccept : table.keyFault? key = none)
      (habsent : key.bytes ∉ table.slots.entries.map Entry.key) :
      LookupCase table key (.ok none)
  | found {index : Nat} {entry : Entry}
      (haccept : table.keyFault? key = none)
      (hslot : table.slots.get index = .occupied entry)
      (hkey : entry.key = key.bytes) :
      LookupCase table key (.ok (some entry))

theorem WellFormed.lookupCase (hgood : table.WellFormed) (key : View) :
    LookupCase table key (table.entry? key) := by
  unfold entry?
  cases hfault : table.keyFault? key with
  | some fault => exact .rejected hfault
  | none =>
      rcases hgood.locate_cases key.bytes with
        ⟨index, entry, hslot, hkey, hlocate⟩ |
        ⟨habsent, step, -, hlocate⟩
      · rw [hlocate]
        exact .found hfault hslot hkey
      · rw [hlocate]
        exact .missing hfault habsent

/-! ## Writing -/

/-- A new entry in the slot where its walk found room. -/
def seat (table : Table) (key value : View) (step : Nat) : Table :=
  table.occupy (Ring.walk table.capacity (fnv1a key.bytes) step)
    (Entry.ofViews key value)

inductive WriteCase (limit : Nat) (table : Table) (key value : View) :
    Outcome Table Written → Prop
  | rejected {fault : Fault}
      (hfault : table.pairFault? key value = some fault) :
      WriteCase limit table key value (.refused table fault)
  | replaced {index : Nat} {entry : Entry}
      (haccept : table.pairFault? key value = none)
      (hslot : table.slots.get index = .occupied entry)
      (hkey : entry.key = key.bytes) :
      WriteCase limit table key value
        (.done (table.revalue index entry value.stored)
          (.replaced entry.value))
  | seated {step : Nat}
      (haccept : table.pairFault? key value = none)
      (habsent : key.bytes ∉ table.slots.entries.map Entry.key)
      (hfirst : table.slots.FirstEmpty (fnv1a key.bytes) step)
      (hload : Capacity.Admits table.capacity (table.used + 1)) :
      WriteCase limit table key value
        (.done (table.seat key value step) .added)
  | overflowed
      (haccept : table.pairFault? key value = none)
      (habsent : key.bytes ∉ table.slots.entries.map Entry.key)
      (hfull : ¬ Capacity.Admits table.capacity (table.used + 1))
      (hword : UInt64.size ≤ 2 * table.capacity) :
      WriteCase limit table key value (.refused table .capacityOverflow)
  | starved
      (haccept : table.pairFault? key value = none)
      (habsent : key.bytes ∉ table.slots.entries.map Entry.key)
      (hfull : ¬ Capacity.Admits table.capacity (table.used + 1))
      (hword : 2 * table.capacity < UInt64.size)
      (hlimit : limit < 2 * table.capacity) :
      WriteCase limit table key value
        (.refused table (.allocation (2 * table.capacity)))
  | grown {step : Nat} {grown : Table}
      (haccept : table.pairFault? key value = none)
      (habsent : key.bytes ∉ table.slots.entries.map Entry.key)
      (hfirst : table.slots.FirstEmpty (fnv1a key.bytes) step)
      (hfull : ¬ Capacity.Admits table.capacity (table.used + 1))
      (hword : 2 * table.capacity < UInt64.size)
      (hlimit : 2 * table.capacity ≤ limit)
      (hgrows : (table.seat key value step).GrowsInto
        (2 * table.capacity) grown) :
      WriteCase limit table key value
        ⟨.ok .added, grown, some
          ⟨table.capacity, 2 * table.capacity, table.count + 1,
            table.tombstones⟩⟩

theorem fits_ofViews (hkey : key.Aligned) (hvalue : value.Aligned)
    (haccept : table.pairFault? key value = none) :
    (Entry.ofViews key value).Fits table.keyStride table.valueStride := by
  rw [pairFault?_eq_none_iff, keyFault?_eq_none_iff] at haccept
  rcases haccept with ⟨⟨hbytes, hkeyStride⟩, hvalueStride⟩
  refine ⟨rfl, hbytes, hkeyStride ▸ hkey.stride_dvd, ?_⟩
  intro bytes hstored
  obtain ⟨hne, rfl⟩ := View.stored_eq_some_iff.mp hstored
  exact ⟨hne, hvalueStride ▸ hvalue.stride_dvd⟩

@[simp]
theorem capacity_seat (step : Nat) :
    (table.seat key value step).capacity = table.capacity :=
  capacity_occupy table _ _

theorem used_seat (step : Nat) :
    (table.seat key value step).used = table.used + 1 := by
  unfold seat occupy used
  dsimp only
  omega

theorem Consistent.seat {step : Nat} (hgood : table.Consistent)
    (hkey : key.Aligned) (hvalue : value.Aligned)
    (haccept : table.pairFault? key value = none)
    (habsent : key.bytes ∉ table.slots.entries.map Entry.key)
    (hfirst : table.slots.FirstEmpty (fnv1a key.bytes) step) :
    (table.seat key value step).Consistent := by
  have hoccupied :
      (table.occupy
        (Ring.walk table.capacity (Entry.ofViews key value).hash step)
        (Entry.ofViews key value)).Consistent :=
    hgood.occupy hfirst habsent (fits_ofViews hkey hvalue haccept)
  exact hoccupied

/-- One doubling makes room for one more slot. -/
theorem WellFormed.admits_double (hgood : table.WellFormed) :
    Capacity.Admits (2 * table.capacity) (table.used + 1) := by
  have hload : 4 * table.used ≤ 3 * table.capacity := hgood.load
  have hleast : 8 ≤ table.capacity := hgood.least_le
  unfold Capacity.Admits
  omega

theorem WellFormed.double_ne (hgood : table.WellFormed) :
    2 * table.capacity ≠ table.capacity := by
  have hleast : 8 ≤ table.capacity := hgood.least_le
  omega

theorem WellFormed.fit_full (hgood : table.WellFormed)
    (hfull : ¬ Capacity.Admits table.capacity (table.used + 1)) :
    Capacity.fit table.capacity (table.used + 1) =
      if 2 * table.capacity < UInt64.size then .ok (2 * table.capacity)
      else .error .capacityOverflow :=
  Capacity.fit_of_double hfull hgood.admits_double

theorem WellFormed.full_of_fit_error (hgood : table.WellFormed)
    {fault : Fault}
    (hfit : Capacity.fit table.capacity (table.used + 1) = .error fault) :
    ¬ Capacity.Admits table.capacity (table.used + 1) ∧
      UInt64.size ≤ 2 * table.capacity := by
  have hfull : ¬ Capacity.Admits table.capacity (table.used + 1) := by
    intro hadmits
    simp [Capacity.fit_of_admits hadmits] at hfit
  rw [hgood.fit_full hfull] at hfit
  refine ⟨hfull, Nat.le_of_not_gt ?_⟩
  intro hword
  simp [hword] at hfit

theorem WellFormed.full_of_fit_ne (hgood : table.WellFormed) {fitted : Nat}
    (hfit : Capacity.fit table.capacity (table.used + 1) = .ok fitted)
    (hne : fitted ≠ table.capacity) :
    ¬ Capacity.Admits table.capacity (table.used + 1) ∧
      2 * table.capacity < UInt64.size ∧ fitted = 2 * table.capacity := by
  have hfull := Capacity.not_admits_of_fit_ne hfit hne
  rw [hgood.fit_full hfull] at hfit
  by_cases hword : 2 * table.capacity < UInt64.size
  · rw [if_pos hword, Except.ok.injEq] at hfit
    exact ⟨hfull, hword, hfit.symm⟩
  · simp [hword] at hfit

theorem WellFormed.writeCase (hgood : table.WellFormed) (limit : Nat)
    (hkey : key.Aligned) (hvalue : value.Aligned) :
    WriteCase limit table key value (table.write limit key value) := by
  rw [write]
  cases hfault : table.pairFault? key value with
  | some fault => exact .rejected hfault
  | none =>
      rcases hgood.locate_cases key.bytes with
        ⟨index, entry, hslot, hsame, hlocate⟩ |
        ⟨habsent, step, hfirst, hlocate⟩
      · rw [hlocate]
        exact .replaced hfault hslot hsame
      · have hseat : (table.seat key value step).Consistent :=
          hgood.toConsistent.seat hkey hvalue hfault habsent hfirst
        have hback :
            (table.seat key value step).vacate
              (Ring.walk table.capacity (fnv1a key.bytes) step) = table :=
          vacate_occupy hfirst.empty _
        have hroom := hseat.roomCase limit 0
        have hused : Capacity.fit (table.seat key value step).capacity
            ((table.seat key value step).used + 0) =
              Capacity.fit table.capacity (table.used + 1) := by
          rw [capacity_seat, Nat.add_zero, used_seat]
        generalize hmake : (table.seat key value step).makeRoom limit 0 = room
          at hroom
        unfold seat at hmake hback
        rw [hlocate]
        simp only [hmake, hback]
        cases hroom with
        | ample hfit =>
            rw [hused, capacity_seat] at hfit
            exact .seated hfault habsent hfirst
              (Capacity.fits_of_fit hfit).admits
        | overflowed hfit =>
            rw [hused] at hfit
            obtain ⟨hfull, hword⟩ := hgood.full_of_fit_error hfit
            exact .overflowed hfault habsent hfull hword
        | starved hfit hne hlimit =>
            rw [hused] at hfit
            rw [capacity_seat] at hne
            obtain ⟨hfull, hword, rfl⟩ := hgood.full_of_fit_ne hfit hne
            exact .starved hfault habsent hfull hword hlimit
        | grown hfit hne hlimit hgrows =>
            rw [hused] at hfit
            rw [capacity_seat] at hne ⊢
            obtain ⟨hfull, hword, rfl⟩ := hgood.full_of_fit_ne hfit hne
            exact .grown hfault habsent hfirst hfull hword hlimit hgrows

theorem WriteCase.wellFormed {outcome : Outcome Table Written}
    (hcase : WriteCase limit table key value outcome)
    (hgood : table.WellFormed) (hkey : key.Aligned)
    (hvalue : value.Aligned) : outcome.state.WellFormed := by
  cases hcase with
  | rejected => exact hgood
  | replaced haccept hslot hsame =>
      apply hgood.revalue hslot
      exact (fits_ofViews hkey hvalue haccept).value_fits
  | seated haccept habsent hfirst hload =>
      have hseat :=
        hgood.toConsistent.seat hkey hvalue haccept habsent hfirst
      refine { hseat with load := ?_ }
      rwa [Outcome.done, capacity_seat, used_seat]
  | overflowed => exact hgood
  | starved => exact hgood
  | grown haccept habsent hfirst hfull hword hlimit hgrows =>
      have hseat :=
        hgood.toConsistent.seat hkey hvalue haccept habsent hfirst
      have hfit := hgood.fit_full hfull
      rw [if_pos hword] at hfit
      apply hgrows.wellFormed hseat 0
      rw [capacity_seat, used_seat]
      exact hfit

/-! ## Erasing -/

inductive EraseCase (table : Table) (key : View) :
    Outcome Table (Option Entry) → Prop
  | rejected {fault : Fault} (hfault : table.keyFault? key = some fault) :
      EraseCase table key (.refused table fault)
  | missing (haccept : table.keyFault? key = none)
      (habsent : key.bytes ∉ table.slots.entries.map Entry.key) :
      EraseCase table key (.done table none)
  | vacated {index : Nat} {entry : Entry}
      (haccept : table.keyFault? key = none)
      (hslot : table.slots.get index = .occupied entry)
      (hkey : entry.key = key.bytes)
      (hnext : table.slots.get (Ring.after table.capacity index) = .empty) :
      EraseCase table key (.done (table.vacate index) (some entry))
  | buried {index : Nat} {entry : Entry}
      (haccept : table.keyFault? key = none)
      (hslot : table.slots.get index = .occupied entry)
      (hkey : entry.key = key.bytes)
      (hnext : table.slots.get (Ring.after table.capacity index) ≠ .empty) :
      EraseCase table key (.done (table.bury index) (some entry))

theorem WellFormed.eraseCase (hgood : table.WellFormed) (key : View) :
    EraseCase table key (table.erase key) := by
  rw [erase]
  cases hfault : table.keyFault? key with
  | some fault => exact .rejected hfault
  | none =>
      rcases hgood.locate_cases key.bytes with
        ⟨index, entry, hslot, hsame, hlocate⟩ |
        ⟨habsent, step, -, hlocate⟩
      · simp only [hlocate, Slot.isEmpty_iff]
        by_cases hnext :
            table.slots.get (Ring.after table.capacity index) = .empty
        · rw [if_pos hnext]
          exact .vacated hfault hslot hsame hnext
        · rw [if_neg hnext]
          exact .buried hfault hslot hsame hnext
      · simp only [hlocate]
        exact .missing hfault habsent

theorem EraseCase.wellFormed {outcome : Outcome Table (Option Entry)}
    (hcase : EraseCase table key outcome) (hgood : table.WellFormed) :
    outcome.state.WellFormed := by
  cases hcase with
  | rejected => exact hgood
  | missing => exact hgood
  | vacated haccept hslot hsame hnext => exact hgood.vacate hslot hnext
  | buried haccept hslot hsame hnext => exact hgood.bury hslot

/-! ## Reserving -/

inductive ReserveCase (limit : Nat) (table : Table) (extra : Nat) :
    Outcome Table Unit → Prop
  | ample
      (hfit : Capacity.fit table.capacity (table.used + extra) =
        .ok table.capacity) :
      ReserveCase limit table extra (.done table ())
  | overflowed
      (hfit : Capacity.fit table.capacity (table.used + extra) =
        .error .capacityOverflow) :
      ReserveCase limit table extra (.refused table .capacityOverflow)
  | starved {fitted : Nat}
      (hfit : Capacity.fit table.capacity (table.used + extra) = .ok fitted)
      (hne : fitted ≠ table.capacity) (hlimit : limit < fitted) :
      ReserveCase limit table extra (.refused table (.allocation fitted))
  | grown {fitted : Nat} {grown : Table}
      (hfit : Capacity.fit table.capacity (table.used + extra) = .ok fitted)
      (hne : fitted ≠ table.capacity) (hlimit : fitted ≤ limit)
      (hgrows : table.GrowsInto fitted grown) :
      ReserveCase limit table extra
        ⟨.ok (), grown, some
          ⟨table.capacity, fitted, table.count, table.tombstones⟩⟩

theorem WellFormed.reserveCase (hgood : table.WellFormed)
    (limit extra : Nat) :
    ReserveCase limit table extra (table.reserve limit extra) := by
  rw [reserve]
  have hroom := hgood.roomCase limit extra
  generalize table.makeRoom limit extra = room at hroom
  cases hroom with
  | ample hfit => exact .ample hfit
  | overflowed hfit => exact .overflowed hfit
  | starved hfit hne hlimit => exact .starved hfit hne hlimit
  | grown hfit hne hlimit hgrows => exact .grown hfit hne hlimit hgrows

theorem ReserveCase.wellFormed {outcome : Outcome Table Unit}
    (hcase : ReserveCase limit table extra outcome)
    (hgood : table.WellFormed) : outcome.state.WellFormed := by
  cases hcase with
  | ample => exact hgood
  | overflowed => exact hgood
  | starved => exact hgood
  | grown hfit hne hlimit hgrows =>
      exact hgrows.wellFormed hgood.toConsistent extra hfit

/-! ## Creating -/

theorem wellFormed_create {room keyStride valueStride : Nat}
    (hcreate : create limit room keyStride valueStride = .ok table) :
    table.WellFormed ∧
      ∃ capacity, Capacity.fit Capacity.least room = .ok capacity ∧
        capacity ≤ limit ∧
        table = ⟨Slots.blank capacity, 0, 0, keyStride, valueStride⟩ := by
  rw [create] at hcreate
  by_cases hzero : keyStride = 0 ∨ valueStride = 0
  · simp [hzero] at hcreate
  · rw [if_neg hzero] at hcreate
    cases hfit : Capacity.fit Capacity.least room with
    | error fault => simp [hfit] at hcreate
    | ok capacity =>
        simp only [hfit, Slots.allocate] at hcreate
        by_cases hlimit : limit < capacity
        · simp [hlimit] at hcreate
        · simp only [if_neg hlimit, Except.ok.injEq] at hcreate
          subst hcreate
          have hfits := Capacity.fits_of_fit hfit
          have hbinary : Ring.IsBinary Capacity.least := ⟨3, rfl⟩
          exact ⟨wellFormed_blank (hfits.isBinary hbinary) hfits.le
              (hfits.lt_wordSize (by decide)) (by omega) (by omega),
            capacity, rfl, by omega, rfl⟩

end LinearProbing.Table
