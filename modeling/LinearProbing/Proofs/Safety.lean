import LinearProbing.Proofs.GuardedCounts
import LinearProbing.Proofs.GuardedUpdates
import LinearProbing.Proofs.Session

/-!
# Safety of reachable tables

Every call on a reachable table, made with all its checks, does what the
plain call does.  So no slot is read or written outside the array, no number
leaves a machine word, no search lands on a slot of the wrong kind, no
assertion is refuted and every loop ends.  What is refused is refused for the
arguments or for want of memory, never for a walk that met no empty slot.
-/

namespace LinearProbing

namespace Guarded

noncomputable def perform (table : Table) (request : Request) :
    Guarded (Outcome Table Reply) :=
  match request.call with
  | .write key value => do
      let outcome ← write request.limit table key.val value.val
      pure (outcome.map .written)
  | .insert key value => do
      let outcome ← insert request.limit table key.val value.val
      pure (outcome.map .inserted)
  | .get key => do
      let found ← get table key.val
      pure ((Outcome.ofExcept table found).map .found)
  | .contains key => do
      let present ← contains table key.val
      pure (.done table (.contained present))
  | .erase key => do
      let outcome ← erase table key.val
      pure (outcome.map .erased)
  | .reserve extra => do
      let outcome ← reserve request.limit table extra
      pure (outcome.map fun _ => .done)
  | .clear => pure (.done table.clear .done)
  | .list steps => do
      let (entries, _) ← list steps table.cursor
      pure (.done table (.listed entries))
  | .drain steps abandoned => do
      let (entries, last) ← drain steps table.drain
      pure (.done (if abandoned then last.abandon else last.finish)
        (.listed entries))

theorem perform_eq {table : Table} (hgood : table.WellFormed)
    (request : Request) :
    perform table request = pure (table.perform request) := by
  rcases request with ⟨limit, call⟩
  unfold perform Table.perform
  cases call with
  | write key value =>
      simp only [write_eq hgood key.2 value.2, pure_bind]
  | insert key value =>
      simp only [insert_eq hgood key.2 value.2, pure_bind]
  | get key => simp only [get_eq hgood, pure_bind]
  | contains key => simp only [contains_eq hgood, pure_bind]
  | erase key => simp only [erase_eq hgood, pure_bind]
  | reserve extra => simp only [reserve_eq hgood.toConsistent, pure_bind]
  | clear => rfl
  | list steps => simp only [list_eq, pure_bind]
  | drain steps abandoned =>
      have hstart : table.drain.index ≤ table.drain.table.capacity :=
        Nat.zero_le _
      simp only [drain_eq hgood hstart, pure_bind]

end Guarded

/-- What there is at the spot where a search for a key ends. -/
def Spot.Holds (table : Table) (key : Bytes) : Spot → Prop
  | .found index =>
      index < table.capacity ∧
        ∃ entry, table.slots.get index = .occupied entry ∧ entry.key = key
  | .vacant index =>
      index < table.capacity ∧ table.slots.get index = .empty

namespace Outcome

variable {State Answer Reply : Type} {state : State} {fault : Fault}

/-- Whatever the fault is, it shows no defect of the table. -/
def External (outcome : Outcome State Answer) : Prop :=
  ∀ fault, outcome.result = .error fault → fault.isInternal = false

theorem external_done (state : State) (answer : Answer) :
    (done state answer).External := by
  intro fault hfault
  simp [done] at hfault

theorem external_refused (hfault : fault.isInternal = false) :
    (refused state fault : Outcome State Answer).External := by
  intro found hfound
  rw [refused, Except.error.injEq] at hfound
  rwa [← hfound]

theorem External.map {outcome : Outcome State Answer}
    (hexternal : outcome.External) (f : Answer → Reply) :
    (outcome.map f).External := by
  intro fault hfault
  apply hexternal
  rcases outcome with ⟨_ | answer, after, rehash⟩
  · rw [Outcome.map, Except.map, Except.error.injEq] at hfault
    rw [hfault]
  · simp [Outcome.map, Except.map] at hfault

end Outcome

namespace Table

variable {table : Table} {limit : Nat} {key value : View} {fault : Fault}

/-! ## Faults are external -/

theorem isInternal_strideFault? {expected : Nat} {view : View}
    (hfault : strideFault? expected view = some fault) :
    fault.isInternal = false := by
  unfold strideFault? at hfault
  by_cases hstride : view.stride = expected
  · simp [hstride] at hfault
  · rw [if_neg hstride, Option.some.injEq] at hfault
    subst hfault
    rfl

theorem isInternal_keyFault? (hfault : table.keyFault? key = some fault) :
    fault.isInternal = false := by
  unfold keyFault? at hfault
  by_cases hempty : key.isEmpty
  · rw [if_pos hempty, Option.some.injEq] at hfault
    subst hfault
    rfl
  · rw [if_neg hempty] at hfault
    exact isInternal_strideFault? hfault

theorem isInternal_pairFault?
    (hfault : table.pairFault? key value = some fault) :
    fault.isInternal = false := by
  rcases Option.or_eq_some_iff.mp hfault with hkey | ⟨-, hvalue⟩
  · exact isInternal_keyFault? hkey
  · exact isInternal_strideFault? hvalue

theorem LookupCase.external {found : Except Fault (Option Entry)}
    (hcase : LookupCase table key found) :
    (Outcome.ofExcept table
      (found.map (Option.map table.valueView))).External := by
  cases hcase with
  | rejected hfault =>
      exact Outcome.external_refused (isInternal_keyFault? hfault)
  | missing => exact Outcome.external_done _ _
  | found => exact Outcome.external_done _ _

theorem WriteCase.external {outcome : Outcome Table Written}
    (hcase : WriteCase limit table key value outcome) :
    outcome.External := by
  cases hcase with
  | rejected hfault =>
      exact Outcome.external_refused (isInternal_pairFault? hfault)
  | overflowed => exact Outcome.external_refused rfl
  | starved => exact Outcome.external_refused rfl
  | replaced => exact Outcome.external_done _ _
  | seated => exact Outcome.external_done _ _
  | grown =>
      intro fault hfault
      simp at hfault

theorem EraseCase.external {outcome : Outcome Table (Option Entry)}
    (hcase : EraseCase table key outcome) : outcome.External := by
  cases hcase with
  | rejected hfault =>
      exact Outcome.external_refused (isInternal_keyFault? hfault)
  | missing => exact Outcome.external_done _ _
  | vacated => exact Outcome.external_done _ _
  | buried => exact Outcome.external_done _ _

theorem ReserveCase.external {extra : Nat} {outcome : Outcome Table Unit}
    (hcase : ReserveCase limit table extra outcome) :
    outcome.External := by
  cases hcase with
  | overflowed => exact Outcome.external_refused rfl
  | starved => exact Outcome.external_refused rfl
  | ample => exact Outcome.external_done _ _
  | grown =>
      intro fault hfault
      simp at hfault

theorem WellFormed.external_perform (hgood : table.WellFormed)
    (request : Request) : (table.perform request).External := by
  rcases request with ⟨limit, call⟩
  cases call with
  | write key value =>
      exact (hgood.writeCase limit key.2 value.2).external.map _
  | insert key value =>
      exact ((hgood.writeCase limit key.2 value.2).external.map _).map _
  | get key => exact (hgood.lookupCase key.val).external.map _
  | contains key => exact Outcome.external_done _ _
  | erase key => exact (hgood.eraseCase key.val).external.map _
  | reserve extra => exact (hgood.reserveCase limit extra).external.map _
  | clear => exact Outcome.external_done _ _
  | list steps => exact Outcome.external_done _ _
  | drain steps abandoned => exact Outcome.external_done _ _

/-- What a search reports is below the capacity and what it says it is. -/
theorem WellFormed.guarded_locate (hgood : table.WellFormed) (key : Bytes) :
    ∃ spot : Spot, Guarded.locate table key = pure (.ok spot) ∧
      spot.Holds table key := by
  rw [Guarded.locate_eq hgood]
  rcases hgood.locate_cases key with
    ⟨index, entry, hslot, hkey, hlocate⟩ | ⟨-, step, hfirst, hlocate⟩
  · rw [hlocate]
    exact ⟨.found index, rfl, Slots.lt_size_of_occupied hslot, entry, hslot,
      hkey⟩
  · rw [hlocate]
    exact ⟨.vacant _, rfl, Ring.walk_lt hgood.sound.binary _ _,
      hfirst.empty⟩

/-- No check of any operation fails, and no fault is one of the table. -/
structure Safe (table : Table) : Prop where
  perform :
    ∀ request,
      Guarded.perform table request = pure (table.perform request)
  histogram : Guarded.histogram table = pure table.histogram
  statistics : Guarded.statistics table = pure (.ofTable table)
  external : ∀ request, (table.perform request).External
  located :
    ∀ key, ∃ spot : Spot,
      Guarded.locate table key = pure (.ok spot) ∧ spot.Holds table key

theorem Reachable.safe (hreach : Reachable table) : table.Safe := by
  have hgood := hreach.wellFormed
  exact
    { perform := Guarded.perform_eq hgood
      histogram := Guarded.histogram_eq hgood
      statistics := Guarded.statistics_eq hgood
      external := hgood.external_perform
      located := hgood.guarded_locate }

/-- A drain is abandoned behind the second of two keys of one home. -/
def leaked : List Request :=
  [⟨8, .insert (.plain [0]) (.plain [7])⟩,
    ⟨8, .insert (.plain [8]) (.plain [])⟩,
    ⟨8, .drain 1 true⟩]

theorem safe_leaked :
    let table := run ⟨Slots.blank 8, 0, 0, 1, 1⟩ leaked
    table.slotMap = "x......o" ∧ Reachable table ∧ table.Safe := by
  have hreach := reachable_blank.run leaked
  exact ⟨by decide +kernel, hreach, hreach.safe⟩

end Table

end LinearProbing
