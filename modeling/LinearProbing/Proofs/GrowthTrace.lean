import LinearProbing.Proofs.SlotUsage
import Mathlib.Data.Nat.Log

/-!
# The trace of growth

The log of a session tells how the table grew.  There is a record at each
step that changed the capacity and at no other, and it holds both capacities,
the entries after the step and the tombstones before it.  The records form a
chain from the first capacity to the last, each link of which multiplies the
capacity by a power of two.

So the work of all moves is bounded by the last capacity alone
(`Reachable.traced`): a move takes fewer entries than the old capacity has
slots, which is no more than the growth adds, and what the growths add
telescopes.
-/

namespace LinearProbing

namespace Rehash

/-- Moves from one capacity to another, each of which goes on where the one
before it ended, to a capacity that is twice as large, or four times, and so
on. -/
inductive Chain : Nat → List Rehash → Nat → Prop
  | nil (capacity : Nat) : Chain capacity [] capacity
  | cons {rehash : Rehash} {rehashes : List Rehash} {last : Nat}
      (hdoubled : ∃ doublings > 0,
        rehash.after = 2 ^ doublings * rehash.before)
      (hlater : Chain rehash.after rehashes last) :
      Chain rehash.before (rehash :: rehashes) last

variable {rehash : Rehash} {rehashes : List Rehash} {first last : Nat}

theorem double_le_of_doubled
    (hdoubled : ∃ doublings > 0,
      rehash.after = 2 ^ doublings * rehash.before) :
    2 * rehash.before ≤ rehash.after := by
  obtain ⟨doublings, hpos, hafter⟩ := hdoubled
  rw [hafter]
  apply Nat.mul_le_mul_right
  exact Nat.le_self_pow (by omega) 2

theorem Chain.two_pow_mul_le (hchain : Chain first rehashes last) :
    2 ^ rehashes.length * first ≤ last := by
  induction hchain with
  | nil capacity => simp
  | @cons rehash rehashes last hdoubled hlater ih =>
      calc
        2 ^ (rehash :: rehashes).length * rehash.before =
            2 ^ rehashes.length * (2 * rehash.before) := by
          rw [List.length_cons, Nat.pow_succ, Nat.mul_assoc]
        _ ≤ 2 ^ rehashes.length * rehash.after :=
          Nat.mul_le_mul_left _ (double_le_of_doubled hdoubled)
        _ ≤ last := ih

theorem Chain.length_le (hchain : Chain first rehashes last)
    (hpos : 0 < first) : rehashes.length ≤ Nat.log 2 (last / first) := by
  apply Nat.le_log_of_pow_le (by omega)
  exact (Nat.le_div_iff_mul_le hpos).mpr hchain.two_pow_mul_le

/-- Moves of no more entries than there were slots cost no more than the
growth of the capacity. -/
theorem Chain.sum_moved_le (hchain : Chain first rehashes last)
    (hmoved : ∀ rehash ∈ rehashes, rehash.moved ≤ rehash.before) :
    (rehashes.map Rehash.moved).sum + first ≤ last := by
  induction hchain with
  | nil capacity => simp
  | @cons rehash rehashes last hdoubled hlater ih =>
      rw [List.forall_mem_cons] at hmoved
      have hrest := ih hmoved.2
      have hgrowth := double_le_of_doubled hdoubled
      rw [List.map_cons, List.sum_cons]
      omega

end Rehash

namespace Table

variable {table : Table}

/-- The record of a step from one table to the next. -/
def growth (table next : Table) : Option Rehash :=
  if next.capacity = table.capacity then
    none
  else
    some ⟨table.capacity, next.capacity, next.slots.entries.length,
      table.slots.tally Slot.isTombstone⟩

theorem UsageCase.rehash_eq {request : Request}
    {outcome : Outcome Table Reply}
    (hcase : UsageCase table request outcome) (hgood : table.Consistent)
    (hnext : outcome.state.Consistent) :
    outcome.rehash = table.growth outcome.state := by
  cases hcase with
  | rejected hreject => exact (if_pos rfl).symm
  | starved hfull => exact (if_pos rfl).symm
  | inPlace hroom hreply hcapacity hused hkept =>
      exact (if_pos hcapacity).symm
  | @grown fitted moved next reply hfit hne hreply hmoved hcapacity hcount
      htombstones =>
      change next.Consistent at hnext
      have hlarger : next.capacity ≠ table.capacity := by rwa [hcapacity]
      rw [growth, if_neg hlarger, hcapacity, hnext.length_entries, hcount,
        ← hgood.tombstones_eq]

theorem UsageCase.chain {request : Request}
    {outcome : Outcome Table Reply}
    (hcase : UsageCase table request outcome)
    {rehashes : List Rehash} {last : Nat}
    (hlater : Rehash.Chain outcome.state.capacity rehashes last) :
    Rehash.Chain table.capacity (outcome.rehash.toList ++ rehashes)
      last := by
  cases hcase with
  | rejected hreject => exact hlater
  | starved hfull => exact hlater
  | inPlace hroom hreply hcapacity hused hkept =>
      rw [← hcapacity]
      exact hlater
  | @grown fitted moved next reply hfit hne hreply hmoved hcapacity hcount
      htombstones =>
      change Rehash.Chain next.capacity rehashes last at hlater
      rw [hcapacity] at hlater
      obtain ⟨doublings, hdoubled⟩ := (Capacity.fits_of_fit hfit).doubled
      have hpos : doublings > 0 := by
        apply Nat.pos_of_ne_zero
        rintro rfl
        rw [Nat.pow_zero, Nat.one_mul] at hdoubled
        exact hne hdoubled
      let rehash : Rehash :=
        ⟨table.capacity, fitted, moved, table.tombstones⟩
      have hlink : ∃ doublings > 0,
          rehash.after = 2 ^ doublings * rehash.before :=
        ⟨doublings, hpos, hdoubled⟩
      exact Rehash.Chain.cons hlink hlater

/-- The load leaves a quarter of the slots empty, so even with the new entry
there are fewer entries than there were slots. -/
theorem UsageCase.moved_lt {request : Request}
    {outcome : Outcome Table Reply}
    (hcase : UsageCase table request outcome) (hgood : table.WellFormed)
    {rehash : Rehash} (hrehash : outcome.rehash = some rehash) :
    rehash.moved < rehash.before := by
  cases hcase with
  | rejected hreject => exact absurd hrehash nofun
  | starved hfull => exact absurd hrehash nofun
  | inPlace hroom hreply hcapacity hused hkept => exact absurd hrehash nofun
  | grown hfit hne hreply hmoved hcapacity hcount htombstones =>
      rw [Option.some.injEq] at hrehash
      subst hrehash
      have hload : 4 * (table.count + table.tombstones) ≤
          3 * table.capacity := hgood.load
      have hleast : 8 ≤ table.capacity := hgood.least_le
      have hgain : request.call.gain table ≤ 1 := Call.gain_le_one
      dsimp only
      omega

/-! ## A session -/

theorem WellFormed.chain (hgood : table.WellFormed)
    (requests : List Request) :
    Rehash.Chain table.capacity (table.rehashes requests)
      (table.run requests).capacity := by
  induction requests generalizing table with
  | nil => exact .nil table.capacity
  | cons request requests ih =>
      rw [rehashes_cons]
      exact (hgood.usageCase request).chain (ih (hgood.perform request))

theorem WellFormed.moved_lt (hgood : table.WellFormed)
    {requests : List Request} {rehash : Rehash}
    (hrehash : rehash ∈ table.rehashes requests) :
    rehash.moved < rehash.before := by
  obtain ⟨step, hstep, hlogged⟩ := List.mem_filterMap.mp hrehash
  have hstart := hgood.of_mem_steps hstep
  exact (hstart.usageCase step.request).moved_lt hstart hlogged

/-- What the log of a session says, and how much it can say. -/
structure Traced (table : Table) (requests : List Request) : Prop where
  chain :
    Rehash.Chain table.capacity (table.rehashes requests)
      (table.run requests).capacity
  recorded :
    ∀ step ∈ table.steps requests,
      step.outcome.rehash = step.table.growth step.outcome.state
  logged :
    ∀ step ∈ table.steps requests,
      let before := step.table
      let after := step.outcome.state
      step.outcome.rehash.map Rehash.message =
        if after.capacity = before.capacity then
          none
        else
          some
            (s!"rehashed {before.capacity} -> {after.capacity} slots, " ++
              s!"moved {after.slots.entries.length} entries, " ++
              s!"reclaimed {before.slots.tally Slot.isTombstone} tombstones")
  length_le :
    (table.rehashes requests).length ≤
      Nat.log 2 ((table.run requests).capacity / table.capacity)
  sum_moved_lt :
    ((table.rehashes requests).map Rehash.moved).sum <
      (table.run requests).capacity

theorem Reachable.traced (hreach : Reachable table)
    (requests : List Request) : table.Traced requests := by
  have hgood := hreach.wellFormed
  have hchain := hgood.chain requests
  have hpos : 0 < table.capacity := hgood.sound.binary.pos
  have hrecorded : ∀ step ∈ table.steps requests,
      step.outcome.rehash = step.table.growth step.outcome.state := by
    intro step hstep
    have hstart := hgood.of_mem_steps hstep
    exact (hstart.usageCase step.request).rehash_eq hstart.toConsistent
      (hstart.perform step.request).toConsistent
  constructor
  · exact hchain
  · exact hrecorded
  · intro step hstep
    dsimp only
    rw [hrecorded step hstep, growth]
    split
    · rfl
    · rfl
  · exact hchain.length_le hpos
  · have hsum := hchain.sum_moved_le fun rehash hrehash =>
      (hgood.moved_lt hrehash).le
    omega

/-- Seven keys, the fourth of which is erased again, and then room for
twenty. -/
def twiceGrowing : List Request :=
  ((List.range 7).map fun byte =>
      ⟨16, .insert (.plain [byte.toUInt8]) (.plain [])⟩) ++
    [⟨16, .erase (.plain [3])⟩, ⟨16, .reserve 20⟩, ⟨64, .reserve 20⟩]

theorem traced_twiceGrowing :
    let start : Table := ⟨Slots.blank 8, 0, 0, 1, 1⟩
    Reachable start ∧
      start.rehashes twiceGrowing = [⟨8, 16, 7, 0⟩, ⟨16, 64, 6, 1⟩] ∧
      start.Traced twiceGrowing :=
  ⟨reachable_blank, by decide +kernel, reachable_blank.traced twiceGrowing⟩

end Table

end LinearProbing
