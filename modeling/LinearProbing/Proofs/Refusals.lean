import LinearProbing.Proofs.Session

/-!
# Refused calls

Whether a reachable table refuses a write, and with which fault, can be read
off its strides, its counters and its keys before the write starts
(`writeRefusal?`).  A write is refused only for its views or because it would
have to double the capacity and cannot, and a lookup or an erasure only for
its key.

Any call that is refused leaves the table as it was and logs no rehash.  So
the refused calls of a session can be struck out: the other calls have the
same outcomes and lead to the same table (`WellFormed.run_accepted`).
-/

namespace LinearProbing

namespace Outcome

variable {State Answer Reply : Type}

def fault? (outcome : Outcome State Answer) : Option Fault :=
  match outcome.result with
  | .error fault => some fault
  | .ok _ => none

@[simp]
theorem fault?_map (f : Answer → Reply) (outcome : Outcome State Answer) :
    (outcome.map f).fault? = outcome.fault? := by
  rcases outcome with ⟨result, state, rehash⟩
  cases result <;> rfl

/-- A refused call is as if it had never been made. -/
def Atomic (state : State) (outcome : Outcome State Answer) : Prop :=
  outcome.fault? ≠ none → outcome.state = state ∧ outcome.rehash = none

theorem Atomic.map {state : State} {outcome : Outcome State Answer}
    (hatomic : outcome.Atomic state) (f : Answer → Reply) :
    (outcome.map f).Atomic state := by
  intro hfault
  rw [fault?_map] at hfault
  exact hatomic hfault

theorem Atomic.mapState {Other : Type} {state : State}
    {outcome : Outcome State Answer} (hatomic : outcome.Atomic state)
    (f : State → Other) : (outcome.mapState f).Atomic (f state) := by
  intro hfault
  obtain ⟨hstate, hrehash⟩ := hatomic hfault
  exact ⟨congrArg f hstate, hrehash⟩

theorem atomic_done (state next : State) (answer : Answer) :
    (done next answer).Atomic state := by
  intro hfault
  exact absurd rfl hfault

end Outcome

namespace Table

variable {table : Table} {key value : View} {limit : Nat}

/-! ## Which fault a call has -/

def keyRefusal? (table : Table) (key : View) : Option Fault :=
  if key.bytes = [] then
    some .emptyKey
  else if key.stride ≠ table.keyStride then
    some (.strideMismatch table.keyStride key.stride)
  else
    none

def growthRefusal? (limit : Nat) (table : Table) : Option Fault :=
  if 4 * (table.count + table.tombstones + 1) ≤ 3 * table.capacity then
    none
  else if 2 ^ 64 ≤ 2 * table.capacity then
    some .capacityOverflow
  else if limit < 2 * table.capacity then
    some (.allocation (2 * table.capacity))
  else
    none

def writeRefusal? (limit : Nat) (table : Table) (key value : View) :
    Option Fault :=
  match table.keyRefusal? key with
  | some fault => some fault
  | none =>
      if value.stride ≠ table.valueStride then
        some (.strideMismatch table.valueStride value.stride)
      else if key.bytes ∈ table.slots.entries.map Entry.key then
        none
      else
        table.growthRefusal? limit

theorem keyFault?_eq_keyRefusal? :
    table.keyFault? key = table.keyRefusal? key := by
  unfold keyFault? keyRefusal? strideFault? View.isEmpty
  cases hbytes : key.bytes with
  | nil => rfl
  | cons head tail =>
      by_cases hstride : key.stride = table.keyStride
      · simp [hstride]
      · simp [hstride]

theorem writeRefusal?_of_fault {fault : Fault}
    (hfault : table.pairFault? key value = some fault) :
    table.writeRefusal? limit key value = some fault := by
  unfold pairFault? at hfault
  unfold writeRefusal?
  rw [keyFault?_eq_keyRefusal?] at hfault
  cases hkey : table.keyRefusal? key with
  | some first =>
      rw [hkey] at hfault
      exact hfault
  | none =>
      rw [hkey, Option.none_or] at hfault
      unfold strideFault? at hfault
      by_cases hstride : value.stride = table.valueStride
      · simp [hstride] at hfault
      · rw [if_neg hstride] at hfault
        simpa [hstride] using hfault

theorem writeRefusal?_of_accepted
    (haccept : table.pairFault? key value = none) :
    table.writeRefusal? limit key value =
      if key.bytes ∈ table.slots.entries.map Entry.key then none
      else table.growthRefusal? limit := by
  rw [pairFault?_eq_none_iff, keyFault?_eq_keyRefusal?] at haccept
  unfold writeRefusal?
  rw [haccept.1]
  simp [haccept.2]

theorem growthRefusal?_of_full
    (hfull : ¬ Capacity.Admits table.capacity (table.used + 1)) :
    table.growthRefusal? limit =
      if UInt64.size ≤ 2 * table.capacity then some .capacityOverflow
      else if limit < 2 * table.capacity then
        some (.allocation (2 * table.capacity))
      else none :=
  if_neg hfull

theorem WriteCase.fault?_eq {outcome : Outcome Table Written}
    (hcase : WriteCase limit table key value outcome) :
    outcome.fault? = table.writeRefusal? limit key value := by
  cases hcase with
  | rejected hfault => exact (writeRefusal?_of_fault hfault).symm
  | replaced haccept hslot hkey =>
      rw [writeRefusal?_of_accepted haccept,
        if_pos (Slots.mem_keys.mpr ⟨_, _, hslot, hkey⟩)]
      rfl
  | seated haccept habsent hfirst hload =>
      rw [writeRefusal?_of_accepted haccept, if_neg habsent]
      exact (if_pos hload).symm
  | overflowed haccept habsent hfull hword =>
      rw [writeRefusal?_of_accepted haccept, if_neg habsent,
        growthRefusal?_of_full hfull, if_pos hword]
      rfl
  | starved haccept habsent hfull hword hlimit =>
      rw [writeRefusal?_of_accepted haccept, if_neg habsent,
        growthRefusal?_of_full hfull, if_neg (Nat.not_le.mpr hword),
        if_pos hlimit]
      rfl
  | grown haccept habsent hfirst hfull hword hlimit hgrows =>
      rw [writeRefusal?_of_accepted haccept, if_neg habsent,
        growthRefusal?_of_full hfull, if_neg (Nat.not_le.mpr hword),
        if_neg (Nat.not_lt.mpr hlimit)]
      rfl

theorem EraseCase.fault?_eq {outcome : Outcome Table (Option Entry)}
    (hcase : EraseCase table key outcome) :
    outcome.fault? = table.keyRefusal? key := by
  rw [← keyFault?_eq_keyRefusal?]
  cases hcase with
  | rejected hfault => exact hfault.symm
  | missing haccept => exact haccept.symm
  | vacated haccept => exact haccept.symm
  | buried haccept => exact haccept.symm

theorem LookupCase.get_eq_error_iff {found : Except Fault (Option Entry)}
    (hcase : LookupCase table key found) (fault : Fault) :
    found.map (Option.map table.valueView) = .error fault ↔
      table.keyRefusal? key = some fault := by
  rw [← keyFault?_eq_keyRefusal?]
  cases hcase with
  | rejected hfault => simp [hfault, Except.map]
  | missing haccept => simp [haccept, Except.map]
  | found haccept => simp [haccept, Except.map]

/-! ## Refused calls do nothing -/

theorem WriteCase.atomic {outcome : Outcome Table Written}
    (hcase : WriteCase limit table key value outcome) :
    outcome.Atomic table := by
  intro hfault
  cases hcase with
  | rejected => exact ⟨rfl, rfl⟩
  | overflowed => exact ⟨rfl, rfl⟩
  | starved => exact ⟨rfl, rfl⟩
  | replaced => exact absurd rfl hfault
  | seated => exact absurd rfl hfault
  | grown => exact absurd rfl hfault

theorem EraseCase.atomic {outcome : Outcome Table (Option Entry)}
    (hcase : EraseCase table key outcome) : outcome.Atomic table := by
  intro hfault
  cases hcase with
  | rejected => exact ⟨rfl, rfl⟩
  | missing => exact absurd rfl hfault
  | vacated => exact absurd rfl hfault
  | buried => exact absurd rfl hfault

theorem ReserveCase.atomic {extra : Nat} {outcome : Outcome Table Unit}
    (hcase : ReserveCase limit table extra outcome) :
    outcome.Atomic table := by
  intro hfault
  cases hcase with
  | overflowed => exact ⟨rfl, rfl⟩
  | starved => exact ⟨rfl, rfl⟩
  | ample => exact absurd rfl hfault
  | grown => exact absurd rfl hfault

theorem atomic_ofExcept {State Answer : Type} (state : State)
    (result : Except Fault Answer) :
    (Outcome.ofExcept state result).Atomic state := by
  intro _
  cases result <;> exact ⟨rfl, rfl⟩

theorem WellFormed.atomic_perform (hgood : table.WellFormed)
    (request : Request) : (table.perform request).Atomic table := by
  rcases request with ⟨limit, call⟩
  cases call with
  | write key value =>
      exact (hgood.writeCase limit key.2 value.2).atomic.map _
  | insert key value =>
      exact ((hgood.writeCase limit key.2 value.2).atomic.map _).map _
  | get key => exact (atomic_ofExcept table (table.get key.val)).map _
  | contains key => exact Outcome.atomic_done _ _ _
  | erase key => exact (hgood.eraseCase key.val).atomic.map _
  | reserve extra => exact (hgood.reserveCase limit extra).atomic.map _
  | clear => exact Outcome.atomic_done _ _ _
  | list steps => exact Outcome.atomic_done _ _ _
  | drain steps abandoned => exact Outcome.atomic_done _ _ _

/-! ## Sessions without their refused calls -/

def accepted (table : Table) : List Request → List Request
  | [] => []
  | request :: requests =>
      let outcome := table.perform request
      if outcome.fault?.isSome then
        outcome.state.accepted requests
      else
        request :: outcome.state.accepted requests

theorem WellFormed.run_accepted (hgood : table.WellFormed)
    (requests : List Request) :
    table.run (table.accepted requests) = table.run requests ∧
      table.outcomes (table.accepted requests) =
        (table.outcomes requests).filter (·.fault?.isNone) := by
  induction requests generalizing table with
  | nil => exact ⟨rfl, rfl⟩
  | cons request requests ih =>
      obtain ⟨hrun, houtcomes⟩ := ih (hgood.perform request)
      have hatomic := hgood.atomic_perform request
      rw [accepted, outcomes]
      cases hfault : (table.perform request).fault? with
      | some fault =>
          have hstate : (table.perform request).state = table := by
            exact (hatomic (by simp [hfault])).1
          rw [hstate] at hrun houtcomes
          simp only [Option.isSome_some, if_true, hstate, List.filter_cons,
            hfault, Option.isNone_some, Bool.false_eq_true, if_false]
          refine ⟨?_, houtcomes⟩
          rw [hrun, run, run, List.foldl_cons, hstate]
      | none =>
          simp only [Option.isSome_none, Bool.false_eq_true, if_false,
            List.filter_cons, hfault, Option.isNone_none, if_true]
          exact ⟨hrun, by rw [outcomes, houtcomes]⟩

/-- Every call is refused exactly when it must be, and then does nothing. -/
structure Refuses (table : Table) : Prop where
  write :
    ∀ limit (key value : AlignedView),
      (table.write limit key.val value.val).fault? =
        table.writeRefusal? limit key.val value.val
  insert :
    ∀ limit (key value : AlignedView),
      (table.insert limit key.val value.val).fault? =
        table.writeRefusal? limit key.val value.val
  get :
    ∀ key fault, table.get key = .error fault ↔
      table.keyRefusal? key = some fault
  erase : ∀ key, (table.erase key).fault? = table.keyRefusal? key
  atomic : ∀ request, (table.perform request).Atomic table
  struck :
    ∀ requests,
      table.run (table.accepted requests) = table.run requests ∧
        table.outcomes (table.accepted requests) =
          (table.outcomes requests).filter (·.fault?.isNone)

theorem Reachable.refuses (hreach : Reachable table) : table.Refuses := by
  have hgood := hreach.wellFormed
  constructor
  · intro limit key value
    exact (hgood.writeCase limit key.2 value.2).fault?_eq
  · intro limit key value
    unfold insert
    rw [Outcome.fault?_map]
    exact (hgood.writeCase limit key.2 value.2).fault?_eq
  · intro key fault
    exact (hgood.lookupCase key).get_eq_error_iff fault
  · intro key
    exact (hgood.eraseCase key).fault?_eq
  · exact hgood.atomic_perform
  · exact hgood.run_accepted

/-- Six keys, all that eight slots have room for. -/
def crowded : List Request :=
  [0, 1, 2, 3, 4, 5].map fun byte =>
    ⟨8, .insert (.plain [byte]) (.plain [])⟩

theorem refuses_crowded :
    let table := run ⟨Slots.blank 8, 0, 0, 1, 1⟩ crowded
    Reachable table ∧ table.count = 6 ∧
      table.writeRefusal? 8 (.plain [6]) (.plain []) =
        some (.allocation 16) ∧
      table.writeRefusal? 16 (.plain [6]) (.plain []) = none ∧
      table.Refuses := by
  have hreach := reachable_blank.run crowded
  exact ⟨hreach, by decide +kernel, by decide +kernel, by decide +kernel,
    hreach.refuses⟩

end Table

end LinearProbing
