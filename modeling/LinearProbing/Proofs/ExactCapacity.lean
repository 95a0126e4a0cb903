import LinearProbing.Proofs.GuardedUpdates
import LinearProbing.Proofs.LeastCapacity
import LinearProbing.Proofs.ReservedRoom
import LinearProbing.Table.Outline

/-!
# Exact capacities

The largest power of two in a machine word is `2 ^ 63`, and it admits
`3 * 2 ^ 61` slots in use.  So a fit for so many slots or fewer is the least
power of two that admits them, and a fit for more is an overflow; there is no
third case (`Capacity.fit_eq_of_isLeast`).  A creation and a reservation ask
for one fit each, and beyond it only the allocation can fail.

A reservation that was granted has made all the room that it asked for, so
asking again for the same room finds the table large enough.  A new table
that reserves some room is the table that is created with that room.
-/

namespace LinearProbing

namespace Capacity

variable {capacity used size : Nat}

theorem isBinary_least : Ring.IsBinary least :=
  ⟨3, rfl⟩

theorem isLeast_lt_wordSize_iff (hbinary : Ring.IsBinary capacity)
    (hword : capacity < UInt64.size)
    (hleast : IsLeast (candidates capacity used) size) :
    size < UInt64.size ↔ used ≤ 3 * 2 ^ 61 := by
  have hsize : UInt64.size = 2 * 2 ^ 63 := rfl
  constructor
  · intro hlt
    have hdouble := hleast.1.1.double_le_wordSize hlt
    have hadmits : 4 * used ≤ 3 * size := hleast.1.2.2
    omega
  · intro hused
    have hdouble := hbinary.double_le_wordSize hword
    have hlargest : 2 ^ 63 ∈ candidates capacity used := by
      refine ⟨⟨63, rfl⟩, by omega, ?_⟩
      unfold Admits
      omega
    have hle : size ≤ 2 ^ 63 := hleast.2 hlargest
    omega

theorem fit_eq_of_isLeast (hbinary : Ring.IsBinary capacity)
    (hword : capacity < UInt64.size)
    (hleast : IsLeast (candidates capacity used) size) :
    fit capacity used =
      if 3 * 2 ^ 61 < used then .error .capacityOverflow else .ok size := by
  have hiff := isLeast_lt_wordSize_iff hbinary hword hleast
  by_cases hover : 3 * 2 ^ 61 < used
  · rw [if_pos hover]
    cases hfit : fit capacity used with
    | error fault => rw [fitWithin_error hfit]
    | ok fitted =>
        obtain ⟨hfitted, hlt⟩ := (fit_eq_ok_iff hbinary hword).mp hfit
        rw [hfitted.unique hleast, hiff] at hlt
        omega
  · rw [if_neg hover, fit_eq_ok_iff hbinary hword]
    exact ⟨hleast, hiff.mpr (Nat.le_of_not_gt hover)⟩

end Capacity

namespace Table

variable {table grown : Table}
  {limit room extra size keyStride valueStride : Nat}

/-! ## Creations -/

theorem create_eq_of_isLeast (hkey : 0 < keyStride)
    (hvalue : 0 < valueStride)
    (hleast : IsLeast (Capacity.candidates Capacity.least room) size) :
    create limit room keyStride valueStride =
      if 3 * 2 ^ 61 < room then .error .capacityOverflow
      else if limit < size then .error (.allocation size)
      else .ok ⟨Slots.blank size, 0, 0, keyStride, valueStride⟩ := by
  have hstrides : ¬ (keyStride = 0 ∨ valueStride = 0) := by omega
  have hfit := Capacity.fit_eq_of_isLeast Capacity.isBinary_least
    (by decide) hleast
  rw [create, if_neg hstrides, hfit]
  by_cases hover : 3 * 2 ^ 61 < room
  · simp only [if_pos hover]
  · simp only [if_neg hover, Slots.allocate]
    by_cases hlimit : limit < size
    · simp only [if_pos hlimit]
    · simp only [if_neg hlimit]

theorem eq_blank_of_create
    (hcreate : create limit 0 keyStride valueStride = .ok table) :
    Capacity.least ≤ limit ∧
      table = ⟨Slots.blank Capacity.least, 0, 0, keyStride, valueStride⟩ := by
  obtain ⟨-, capacity, hfit, hlimit, rfl⟩ := wellFormed_create hcreate
  rw [Capacity.fit_of_admits (Nat.zero_le _), Except.ok.injEq] at hfit
  subst hfit
  exact ⟨hlimit, rfl⟩

/-! ## Reservations -/

/-- Which fault a reservation meets if `size` is the least capacity that
admits what it asks for. -/
def reserveRefusal? (limit : Nat) (table : Table) (extra size : Nat) :
    Option Fault :=
  if 3 * 2 ^ 61 < table.count + table.tombstones + extra then
    some .capacityOverflow
  else if size = table.capacity then
    none
  else if limit < size then
    some (.allocation size)
  else
    none

/-- The entries of one table in another one without tombstones. -/
structure MovedTo (table : Table) (size : Nat) (grown : Table) : Prop where
  capacity_eq : grown.capacity = size
  count_eq : grown.count = table.count
  tombstones_eq : grown.tombstones = 0
  no_tombstone : grown.slots.tally Slot.isTombstone = 0
  perm : grown.slots.entries.Perm table.slots.entries
  contents_eq : grown.contents = table.contents
  sameStrides : table.SameStrides grown

theorem GrowsInto.movedTo (hgrows : table.GrowsInto size grown) :
    table.MovedTo size grown where
  capacity_eq := hgrows.capacity_eq
  count_eq := hgrows.count_eq
  tombstones_eq := hgrows.tombstones_eq
  no_tombstone := by
    rw [hgrows.settles.tombstones, Slots.tally_blank]
    rfl
  perm := hgrows.entries_perm
  contents_eq := hgrows.contents_eq
  sameStrides := ⟨hgrows.keyStride_eq, hgrows.valueStride_eq⟩

theorem GrowsInto.eq_blank {before : Nat}
    (hgrows : GrowsInto ⟨Slots.blank before, 0, 0, keyStride, valueStride⟩
      size grown) :
    grown = ⟨Slots.blank size, 0, 0, keyStride, valueStride⟩ := by
  have hslots := hgrows.settles.eq_ok
  rw [Slots.entries_blank] at hslots
  have hblank : Slots.blank size = grown.slots := Except.ok.inj hslots
  rw [hblank]
  cases grown
  simpa using ⟨hgrows.count_eq, hgrows.tombstones_eq, hgrows.keyStride_eq,
    hgrows.valueStride_eq⟩

theorem reserve_of_admits
    (hadmits : Capacity.Admits table.capacity (table.used + extra))
    (limit : Nat) : table.reserve limit extra = .done table () := by
  simp only [reserve, makeRoom, Capacity.fit_of_admits hadmits, if_true]
  rfl

section

variable (hgood : table.WellFormed)
  (hleast : IsLeast
    (Capacity.candidates table.capacity (table.used + extra)) size)
include hgood hleast

theorem WellFormed.fit_eq :
    Capacity.fit table.capacity (table.used + extra) =
      if 3 * 2 ^ 61 < table.used + extra then .error .capacityOverflow
      else .ok size :=
  Capacity.fit_eq_of_isLeast hgood.sound.binary hgood.lt_wordSize hleast

theorem WellFormed.fit_ok {fitted : Nat}
    (hfit : Capacity.fit table.capacity (table.used + extra) = .ok fitted) :
    ¬ 3 * 2 ^ 61 < table.used + extra ∧ fitted = size := by
  rw [hgood.fit_eq hleast] at hfit
  by_cases hover : 3 * 2 ^ 61 < table.used + extra
  · rw [if_pos hover] at hfit
    exact absurd hfit nofun
  · rw [if_neg hover, Except.ok.injEq] at hfit
    exact ⟨hover, hfit.symm⟩

theorem WellFormed.fit_error {fault : Fault}
    (hfit : Capacity.fit table.capacity (table.used + extra) =
      .error fault) : 3 * 2 ^ 61 < table.used + extra := by
  by_contra hover
  rw [hgood.fit_eq hleast, if_neg hover] at hfit
  exact absurd hfit nofun

theorem ReserveCase.fault?_eq {outcome : Outcome Table Unit}
    (hcase : ReserveCase limit table extra outcome) :
    outcome.fault? = table.reserveRefusal? limit extra size := by
  change _ = if 3 * 2 ^ 61 < table.used + extra then _ else _
  cases hcase with
  | ample hfit =>
      obtain ⟨hover, heq⟩ := hgood.fit_ok hleast hfit
      rw [if_neg hover, if_pos heq.symm]
      rfl
  | overflowed hfit =>
      rw [if_pos (hgood.fit_error hleast hfit)]
      rfl
  | starved hfit hne hlimit =>
      obtain ⟨hover, rfl⟩ := hgood.fit_ok hleast hfit
      rw [if_neg hover, if_neg hne, if_pos hlimit]
      rfl
  | grown hfit hne hlimit hgrows =>
      obtain ⟨hover, rfl⟩ := hgood.fit_ok hleast hfit
      rw [if_neg hover, if_neg hne, if_neg (Nat.not_lt.mpr hlimit)]
      rfl

theorem ReserveCase.movedTo {outcome : Outcome Table Unit}
    (hcase : ReserveCase limit table extra outcome)
    (hresult : outcome.result = .ok ()) (hne : size ≠ table.capacity) :
    table.MovedTo size outcome.state ∧
      outcome.rehash = some
        ⟨table.capacity, size, table.count, table.tombstones⟩ := by
  cases hcase with
  | ample hfit => exact absurd (hgood.fit_ok hleast hfit).2.symm hne
  | overflowed => exact absurd hresult nofun
  | starved => exact absurd hresult nofun
  | grown hfit _ _ hgrows =>
      obtain ⟨-, rfl⟩ := hgood.fit_ok hleast hfit
      exact ⟨hgrows.movedTo, rfl⟩

end

/-! ## A new table that reserves -/

theorem reserve_new
    (hcreate : create limit 0 keyStride valueStride = .ok table)
    (room : Nat) :
    (table.reserve limit room).result.map
        (fun _ => (table.reserve limit room).state) =
      create limit room keyStride valueStride := by
  have hgood := (wellFormed_create hcreate).1
  obtain ⟨hlimit, hblank⟩ := eq_blank_of_create hcreate
  have hkey : 0 < keyStride := by
    simpa [hblank] using hgood.keyStride_pos
  have hvalue : 0 < valueStride := by
    simpa [hblank] using hgood.valueStride_pos
  have hcapacity : table.capacity = Capacity.least := by
    simp [hblank, capacity]
  have hused : table.used + room = room := by
    simp [hblank, used]
  obtain ⟨size, hleast⟩ := Capacity.exists_isLeast Capacity.least room
  have hfitted : IsLeast
      (Capacity.candidates table.capacity (table.used + room)) size := by
    rwa [hcapacity, hused]
  rw [create_eq_of_isLeast hkey hvalue hleast]
  -- the four ends of the reservation are those of the creation
  have hcase := hgood.reserveCase limit room
  generalize table.reserve limit room = outcome at hcase
  cases hcase with
  | ample hfit =>
      obtain ⟨hroom, hsame⟩ := hgood.fit_ok hfitted hfit
      rw [hused] at hroom
      rw [hcapacity] at hsame
      rw [if_neg hroom, ← hsame, if_neg (Nat.not_lt.mpr hlimit)]
      exact congrArg Except.ok hblank
  | overflowed hfit =>
      have hroom := hgood.fit_error hfitted hfit
      rw [hused] at hroom
      rw [if_pos hroom]
      rfl
  | starved hfit _ hfew =>
      obtain ⟨hroom, rfl⟩ := hgood.fit_ok hfitted hfit
      rw [hused] at hroom
      rw [if_neg hroom, if_pos hfew]
      rfl
  | grown hfit _ henough hgrows =>
      obtain ⟨hroom, rfl⟩ := hgood.fit_ok hfitted hfit
      rw [hused] at hroom
      rw [if_neg hroom, if_neg (Nat.not_lt.mpr henough)]
      subst hblank
      exact congrArg Except.ok hgrows.eq_blank

/-! ## The size that is asked for -/

/-- What a creation comes to, and how a reservation on a new table compares
with it.  The doubling is a loop without a bound, and it ends. -/
structure CreatesLeast (room keyStride valueStride size : Nat) : Prop where
  least : IsLeast (Capacity.candidates Capacity.least room) size
  doubled :
    Guarded.fit Capacity.least room =
      pure (if 3 * 2 ^ 61 < room then .error .capacityOverflow else .ok size)
  create_eq :
    ∀ limit, create limit room keyStride valueStride =
      if 3 * 2 ^ 61 < room then .error .capacityOverflow
      else if limit < size then .error (.allocation size)
      else .ok ⟨Slots.blank size, 0, 0, keyStride, valueStride⟩
  reserve_new :
    ∀ limit table, create limit 0 keyStride valueStride = .ok table →
      let outcome := table.reserve limit room
      outcome.result.map (fun _ => outcome.state) =
        create limit room keyStride valueStride

/-- What a reservation comes to, under whatever limit. -/
structure ReservesLeast (table : Table) (extra size : Nat) : Prop where
  least :
    IsLeast
      (Capacity.candidates table.capacity
        (table.count + table.tombstones + extra)) size
  doubled :
    Guarded.fit table.capacity (table.count + table.tombstones + extra) =
      pure
        (if 3 * 2 ^ 61 < table.count + table.tombstones + extra then
          .error .capacityOverflow
        else
          .ok size)
  checked :
    ∀ limit, Guarded.reserve limit table extra =
      pure (table.reserve limit extra)
  fault?_eq :
    ∀ limit, (table.reserve limit extra).fault? =
      table.reserveRefusal? limit extra size
  atomic : ∀ limit, (table.reserve limit extra).Atomic table
  ample :
    size = table.capacity →
      ∀ limit, table.reserve limit extra = .done table ()
  grown :
    ∀ limit, (table.reserve limit extra).result = .ok () →
      size ≠ table.capacity →
        table.MovedTo size (table.reserve limit extra).state ∧
          (table.reserve limit extra).rehash = some
            ⟨table.capacity, size, table.count, table.tombstones⟩
  again :
    ∀ limit, (table.reserve limit extra).result = .ok () →
      let next := (table.reserve limit extra).state
      ∀ later, next.reserve later extra = .done next ()

theorem createsLeast (hkey : 0 < keyStride) (hvalue : 0 < valueStride)
    (hleast : IsLeast (Capacity.candidates Capacity.least room) size) :
    CreatesLeast room keyStride valueStride size where
  least := hleast
  doubled := by
    rw [Guarded.fit_eq (by decide), Capacity.fit_eq_of_isLeast
      Capacity.isBinary_least (by decide) hleast]
  create_eq _ := create_eq_of_isLeast hkey hvalue hleast
  reserve_new _ _ hcreate := Table.reserve_new hcreate room

theorem WellFormed.reservesLeast (hgood : table.WellFormed)
    (hleast : IsLeast
      (Capacity.candidates table.capacity (table.used + extra)) size) :
    table.ReservesLeast extra size where
  least := hleast
  doubled := by
    have hpos : 0 < table.capacity := hgood.sound.binary.pos
    rw [Guarded.fit_eq hpos]
    exact congrArg pure (hgood.fit_eq hleast)
  checked limit := Guarded.reserve_eq hgood.toConsistent limit extra
  fault?_eq limit :=
    (hgood.reserveCase limit extra).fault?_eq hgood hleast
  atomic limit := (hgood.reserveCase limit extra).atomic
  ample := by
    intro hsame limit
    have hadmits : Capacity.Admits size (table.used + extra) := hleast.1.2.2
    exact reserve_of_admits (hsame ▸ hadmits) limit
  grown := by
    intro limit hresult hne
    exact (hgood.reserveCase limit extra).movedTo hgood hleast hresult hne
  again := by
    intro limit hresult next later
    have hadmits := (hgood.reserveCase limit extra).admits hresult
    exact reserve_of_admits hadmits later

theorem capacities_exact :
    (∀ room keyStride valueStride, 0 < keyStride → 0 < valueStride →
        ∃ size, CreatesLeast room keyStride valueStride size) ∧
      ∀ table, Reachable table →
        ∀ extra, ∃ size, table.ReservesLeast extra size := by
  constructor
  · intro room keyStride valueStride hkey hvalue
    obtain ⟨size, hleast⟩ := Capacity.exists_isLeast Capacity.least room
    exact ⟨size, createsLeast hkey hvalue hleast⟩
  · intro table hreach extra
    obtain ⟨size, hleast⟩ :=
      Capacity.exists_isLeast table.capacity (table.used + extra)
    exact ⟨size, hreach.wellFormed.reservesLeast hleast⟩

/-- Two entries and a tombstone. -/
def cratered : List Request :=
  [⟨8, .insert (.plain [0]) (.plain [])⟩,
    ⟨8, .insert (.plain [8]) (.plain [1])⟩,
    ⟨8, .insert (.plain [16]) (.plain [])⟩,
    ⟨8, .erase (.plain [8])⟩]

/-- Three slots are in use, so this is all the room that a word can count,
and one more is too much. -/
theorem capacities_exact_cratered :
    let table := run ⟨Slots.blank 8, 0, 0, 1, 1⟩ cratered
    table.slotMap = "xo.....o" ∧ Reachable table ∧
      (table.reserve 16 (3 * 2 ^ 61 - 3)).fault? =
        some (.allocation (2 ^ 63)) ∧
      (table.reserve 16 (3 * 2 ^ 61 - 2)).fault? = some .capacityOverflow ∧
      (table.reserve 8 3).rehash = none ∧
      (table.reserve 16 4).rehash = some ⟨8, 16, 2, 1⟩ ∧
      (∃ size, table.ReservesLeast (3 * 2 ^ 61 - 3) size) ∧
      (∃ size, table.ReservesLeast 4 size) ∧
      ∃ size, CreatesLeast (3 * 2 ^ 61 + 1) 4 8 size := by
  have hreach := reachable_blank.run cratered
  obtain ⟨hcreates, hreserves⟩ := capacities_exact
  exact ⟨by decide +kernel, hreach, by decide +kernel, by decide +kernel,
    by decide +kernel, by decide +kernel, hreserves _ hreach _,
    hreserves _ hreach _, hcreates _ 4 8 (by decide) (by decide)⟩

end Table

end LinearProbing
