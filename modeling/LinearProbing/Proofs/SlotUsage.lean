import LinearProbing.Proofs.DrainSteps
import LinearProbing.Proofs.Refinement
import LinearProbing.Proofs.Refusals

/-!
# What a session does to the slots in use

A step of a session is one of its requests together with the table that the
request meets.  Seen from outside, a step may report a new key, take entries
out, log a rehash, or fail.

For the capacity and the number of slots in use there are few possibilities
(`UsageCase`): a request is refused and changes nothing, is answered on the
slots that there are, or moves the table to more slots.  On the slots that
there are, only a new key takes a slot, and never more than one; removals free
slots or turn them into tombstones, which are in use as before.
-/

namespace LinearProbing

/-- The reply that the written key was new. -/
def Reply.isAddition : Reply → Bool
  | .written answer => answer.isNew
  | .inserted isNew => isNew
  | .found _ | .contained _ | .erased _ | .listed _ | .done => false

def Outcome.isAddition {State : Type} (outcome : Outcome State Reply) :
    Bool :=
  match outcome.result with
  | .ok reply => reply.isAddition
  | .error _ => false

theorem Outcome.map_map {State Answer Reply Other : Type}
    (outcome : Outcome State Answer) (f : Answer → Reply)
    (g : Reply → Other) :
    (outcome.map f).map g = outcome.map fun answer => g (f answer) := by
  rcases outcome with ⟨result, state, rehash⟩
  cases result <;> rfl

namespace Call

def Reserves : Call → Prop
  | .reserve _ => True
  | .write _ _ | .insert _ _ | .get _ | .contains _ | .erase _ | .clear |
    .list _ | .drain _ _ => False

/-- A call that took entries out of the table: a removal that found its key,
and every clearing and drain. -/
def Removes : Call → Except Fault Reply → Prop
  | .erase _, .ok (.erased (some _)) => True
  | .clear, _ | .drain _ _, _ => True
  | _, _ => False

/-- A write that the table accepts, of a key that it does not hold. -/
def Adds (table : Table) : Call → Prop
  | .write key value | .insert key value =>
      table.pairFault? key.val value.val = none ∧
        key.val.bytes ∉ table.slots.entries.map Entry.key
  | .get _ | .contains _ | .erase _ | .reserve _ | .clear | .list _ |
    .drain _ _ => False

instance (table : Table) : (call : Call) → Decidable (call.Adds table)
  | .write _ _ | .insert _ _ => inferInstanceAs (Decidable (_ ∧ _))
  | .get _ | .contains _ | .erase _ | .reserve _ | .clear | .list _ |
    .drain _ _ => inferInstanceAs (Decidable False)

/-- How many keys a call would add. -/
def gain (table : Table) (call : Call) : Nat :=
  if call.Adds table then 1 else 0

/-- How many slots a call asks for besides those in use. -/
def demand (table : Table) (call : Call) : Nat :=
  match call with
  | .reserve extra => extra
  | .write _ _ | .insert _ _ | .get _ | .contains _ | .erase _ | .clear |
    .list _ | .drain _ _ => call.gain table

variable {table : Table} {call : Call}

theorem gain_le_one : call.gain table ≤ 1 := by
  unfold gain
  split <;> omega

theorem demand_eq_gain (hcall : ¬ call.Reserves) :
    call.demand table = call.gain table := by
  cases call with
  | reserve extra => exact absurd trivial hcall
  | _ => rfl

theorem Adds.accepted (hadds : call.Adds table) :
    call.Accepted table.keyStride table.valueStride := by
  cases call with
  | write key value => exact Table.pairFault?_eq_none_iff_isKey.mp hadds.1
  | insert key value => exact Table.pairFault?_eq_none_iff_isKey.mp hadds.1
  | _ => exact hadds.elim

theorem gain_of_not_accepted
    (hreject : ¬ call.Accepted table.keyStride table.valueStride) :
    call.gain table = 0 :=
  if_neg (mt Adds.accepted hreject)

/-- The call is one of the two that write this value under this key. -/
def Writes (key value : AlignedView) (call : Call) : Prop :=
  call = .write key value ∨ call = .insert key value

namespace Writes

variable {key value : AlignedView} (hwrites : call.Writes key value)
include hwrites

theorem demand_eq_gain : call.demand table = call.gain table := by
  rcases hwrites with rfl | rfl
  · rfl
  · rfl

theorem accepted_iff :
    call.Accepted table.keyStride table.valueStride ↔
      table.pairFault? key.val value.val = none := by
  rw [Table.pairFault?_eq_none_iff_isKey]
  rcases hwrites with rfl | rfl
  · exact Iff.rfl
  · exact Iff.rfl

theorem adds_iff :
    call.Adds table ↔
      table.pairFault? key.val value.val = none ∧
        key.val.bytes ∉ table.slots.entries.map Entry.key := by
  rcases hwrites with rfl | rfl
  · exact Iff.rfl
  · exact Iff.rfl

theorem gain_of_mem
    (hmem : key.val.bytes ∈ table.slots.entries.map Entry.key) :
    call.gain table = 0 :=
  if_neg fun hadds => (hwrites.adds_iff.mp hadds).2 hmem

theorem gain_of_not_mem (haccept : table.pairFault? key.val value.val = none)
    (habsent : key.val.bytes ∉ table.slots.entries.map Entry.key) :
    call.gain table = 1 :=
  if_pos (hwrites.adds_iff.mpr ⟨haccept, habsent⟩)

end Writes

end Call

namespace Table

variable {table : Table} {limit : Nat} {key value : AlignedView}

/-! ## The steps of a session -/

structure Step where
  table : Table
  request : Request

def Step.outcome (step : Step) : Outcome Table Reply :=
  step.table.perform step.request

def steps (table : Table) : List Request → List Step
  | [] => []
  | request :: requests =>
      ⟨table, request⟩ :: (table.perform request).state.steps requests

/-- How many requests reported a new key. -/
def added (table : Table) (requests : List Request) : Nat :=
  (table.steps requests).countP fun step => step.outcome.isAddition

/-- How many requests had a new key to add, whether or not they succeeded. -/
def attempted (table : Table) (requests : List Request) : Nat :=
  (table.steps requests).countP fun step =>
    step.request.call.Adds step.table

def rehashes (table : Table) (requests : List Request) : List Rehash :=
  (table.steps requests).filterMap fun step => step.outcome.rehash

theorem added_cons (table : Table) (request : Request)
    (requests : List Request) :
    table.added (request :: requests) =
      (table.perform request).isAddition.toNat +
        (table.perform request).state.added requests := by
  unfold added
  rw [steps, List.countP_cons, Nat.add_comm]
  unfold Step.outcome
  cases (table.perform request).isAddition <;> rfl

theorem attempted_cons (table : Table) (request : Request)
    (requests : List Request) :
    table.attempted (request :: requests) =
      request.call.gain table +
        (table.perform request).state.attempted requests := by
  unfold attempted
  rw [steps, List.countP_cons, Nat.add_comm]
  simp only [decide_eq_true_eq, Call.gain]

theorem rehashes_cons (table : Table) (request : Request)
    (requests : List Request) :
    table.rehashes (request :: requests) =
      (table.perform request).rehash.toList ++
        (table.perform request).state.rehashes requests := by
  unfold rehashes
  rw [steps, List.filterMap_cons]
  unfold Step.outcome
  cases (table.perform request).rehash <;> rfl

theorem WellFormed.of_mem_steps (hgood : table.WellFormed)
    {requests : List Request} {step : Step}
    (hstep : step ∈ table.steps requests) : step.table.WellFormed := by
  induction requests generalizing table with
  | nil => simp [steps] at hstep
  | cons request requests ih =>
      rcases List.mem_cons.mp hstep with rfl | hlater
      · exact hgood
      · exact ih (hgood.perform request) hlater

/-! ## One request -/

/-- All that a request can do to the capacity and the slots in use. -/
inductive UsageCase (table : Table) (request : Request) :
    Outcome Table Reply → Prop
  | rejected {fault : Fault}
      (hreject : ¬ request.call.Accepted table.keyStride
        table.valueStride) :
      UsageCase table request (.refused table fault)
  | starved {fault : Fault}
      (hfull : ¬ Capacity.Admits table.capacity
        (table.used + request.call.demand table)) :
      UsageCase table request (.refused table fault)
  | inPlace {next : Table} {reply : Reply}
      (hroom : Capacity.Admits table.capacity
        (table.used + request.call.demand table))
      (hreply : reply.isAddition.toNat = request.call.gain table)
      (hcapacity : next.capacity = table.capacity)
      (hused : next.used ≤ table.used + request.call.gain table)
      (hkept : ¬ request.call.Removes (.ok reply) →
        next.count = table.count + request.call.gain table ∧
          next.tombstones = table.tombstones) :
      UsageCase table request (.done next reply)
  | grown {fitted moved : Nat} {next : Table} {reply : Reply}
      (hfit : Capacity.fit table.capacity
        (table.used + request.call.demand table) = .ok fitted)
      (hne : fitted ≠ table.capacity)
      (hreply : reply.isAddition.toNat = request.call.gain table)
      (hmoved : moved = table.count + request.call.gain table)
      (hcapacity : next.capacity = fitted)
      (hcount : next.count = moved)
      (htombstones : next.tombstones = 0) :
      UsageCase table request
        ⟨.ok reply, next, some
          ⟨table.capacity, fitted, moved, table.tombstones⟩⟩

/-- A request that has an answer and leaves the table alone. -/
theorem WellFormed.usageCase_done (hgood : table.WellFormed)
    {request : Request} {reply : Reply}
    (hreply : reply.isAddition.toNat = request.call.gain table)
    (hgain : request.call.gain table = 0)
    (hdemand : request.call.demand table = 0) :
    UsageCase table request (.done table reply) := by
  apply UsageCase.inPlace _ hreply rfl (Nat.le_add_right _ _)
  · intro _
    rw [hgain]
    exact ⟨rfl, rfl⟩
  · rw [hdemand]
    exact hgood.load

/-- The two ways to write a key differ only in their replies. -/
theorem WriteCase.usageCase {request : Request}
    {outcome : Outcome Table Written}
    (hcase : WriteCase limit table key.val value.val outcome)
    (hgood : table.WellFormed) (hcall : request.call.Writes key value)
    {reply : Written → Reply}
    (hreply : ∀ written, (reply written).isAddition = written.isNew) :
    UsageCase table request (outcome.map reply) := by
  have hdemand : request.call.demand table = request.call.gain table :=
    hcall.demand_eq_gain
  cases hcase with
  | rejected hfault =>
      apply UsageCase.rejected
      rw [hcall.accepted_iff, hfault]
      exact nofun
  | replaced haccept hslot hkey =>
      have hgain : request.call.gain table = 0 :=
        hcall.gain_of_mem (Slots.mem_keys.mpr ⟨_, _, hslot, hkey⟩)
      apply UsageCase.inPlace
      · rw [hdemand, hgain]
        exact hgood.load
      · rw [hreply, hgain]
        rfl
      · exact capacity_revalue _
      · exact Nat.le_add_right _ _
      · intro _
        rw [hgain]
        exact ⟨rfl, rfl⟩
  | seated haccept habsent hfirst hload =>
      have hgain := hcall.gain_of_not_mem haccept habsent
      apply UsageCase.inPlace
      · rwa [hdemand, hgain]
      · rw [hreply, hgain]
        rfl
      · exact capacity_seat _
      · rw [hgain]
        exact (used_seat _).le
      · intro _
        rw [hgain]
        exact ⟨rfl, rfl⟩
  | overflowed haccept habsent hfull hword =>
      apply UsageCase.starved
      rwa [hdemand, hcall.gain_of_not_mem haccept habsent]
  | starved haccept habsent hfull hword hlimit =>
      apply UsageCase.starved
      rwa [hdemand, hcall.gain_of_not_mem haccept habsent]
  | grown haccept habsent hfirst hfull hword hlimit hgrows =>
      have hgain := hcall.gain_of_not_mem haccept habsent
      have hfit := hgood.fit_full hfull
      rw [if_pos hword, ← hgain, ← hdemand] at hfit
      apply UsageCase.grown hfit hgood.double_ne _ _ hgrows.capacity_eq
        hgrows.count_eq hgrows.tombstones_eq
      · rw [hreply, hgain]
        rfl
      · rw [hgain]
        rfl

theorem EraseCase.usageCase {outcome : Outcome Table (Option Entry)}
    (hcase : EraseCase table key.val outcome) (hgood : table.WellFormed) :
    UsageCase table ⟨limit, .erase key⟩ (outcome.map .erased) := by
  cases hcase with
  | rejected hfault => exact .rejected (not_isKey_of_fault hfault)
  | missing haccept habsent => exact hgood.usageCase_done rfl rfl rfl
  | vacated haccept hslot hkey hnext =>
      apply UsageCase.inPlace hgood.load rfl (capacity_vacate _ _)
      · unfold used vacate
        dsimp only
        omega
      · intro hkept
        exact absurd trivial hkept
  | buried haccept hslot hkey hnext =>
      apply UsageCase.inPlace hgood.load rfl (capacity_bury _ _)
        (used_bury (hgood.count_pos hslot) _).le
      intro hkept
      exact absurd trivial hkept

theorem ReserveCase.usageCase {extra : Nat} {outcome : Outcome Table Unit}
    (hcase : ReserveCase limit table extra outcome) :
    UsageCase table ⟨limit, .reserve extra⟩ (outcome.map fun _ => .done) := by
  cases hcase with
  | ample hfit =>
      exact .inPlace (Capacity.fits_of_fit hfit).admits rfl rfl le_rfl
        fun _ => ⟨rfl, rfl⟩
  | overflowed hfit =>
      apply UsageCase.starved
      intro hroom
      have hsame := Capacity.fit_of_admits hroom
      exact absurd (hfit.symm.trans hsame) nofun
  | starved hfit hne hlimit =>
      exact .starved (Capacity.not_admits_of_fit_ne hfit hne)
  | grown hfit hne hlimit hgrows =>
      exact .grown hfit hne rfl rfl hgrows.capacity_eq hgrows.count_eq
        hgrows.tombstones_eq

theorem LookupCase.usageCase {found : Except Fault (Option Entry)}
    (hcase : LookupCase table key.val found) (hgood : table.WellFormed) :
    UsageCase table ⟨limit, .get key⟩
      ((Outcome.ofExcept table
        (found.map (Option.map table.valueView))).map .found) := by
  cases hcase with
  | rejected hfault => exact .rejected (not_isKey_of_fault hfault)
  | missing haccept habsent => exact hgood.usageCase_done rfl rfl rfl
  | found haccept hslot hkey => exact hgood.usageCase_done rfl rfl rfl

theorem WellFormed.usageCase (hgood : table.WellFormed)
    (request : Request) :
    UsageCase table request (table.perform request) := by
  rcases request with ⟨limit, call⟩
  cases call with
  | write key value =>
      exact (hgood.writeCase limit key.2 value.2).usageCase hgood
        (.inl rfl) fun _ => rfl
  | insert key value =>
      have hcase : UsageCase table ⟨limit, .insert key value⟩
          ((table.write limit key.val value.val).map fun written =>
            .inserted written.isNew) :=
        (hgood.writeCase limit key.2 value.2).usageCase hgood (.inr rfl)
          fun _ => rfl
      rwa [← Outcome.map_map] at hcase
  | get key => exact (hgood.lookupCase key.val).usageCase hgood
  | contains key => exact hgood.usageCase_done rfl rfl rfl
  | erase key => exact (hgood.eraseCase key.val).usageCase hgood
  | reserve extra => exact (hgood.reserveCase limit extra).usageCase
  | clear =>
      exact .inPlace hgood.load rfl (capacity_clear table) (Nat.zero_le _)
        fun hkept => absurd trivial hkept
  | list steps => exact hgood.usageCase_done rfl rfl rfl
  | drain steps abandoned =>
      obtain ⟨hcapacity, hused⟩ := hgood.drain_onward.usage_take steps
      cases abandoned with
      | true =>
          exact .inPlace hgood.load rfl hcapacity hused.le
            fun hkept => absurd trivial hkept
      | false =>
          exact .inPlace hgood.load rfl
            ((capacity_clear _).trans hcapacity) (Nat.zero_le _)
            fun hkept => absurd trivial hkept

end Table

end LinearProbing
