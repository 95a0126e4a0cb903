import LinearProbing.Proofs.SlotUsage

/-!
# Reserved room

A table that was created for some more keys, or on which a reservation of
them succeeded, has slots for them within its load.  Nothing but a new key
takes a slot: what is removed or drained leaves a tombstone at most, in the
place of its entry.  So until those keys have been added no session without
another reservation moves the table, and none of its writes can fail for want
of memory, whatever limits it runs under (`Roomy.keepsRoom`).
-/

namespace LinearProbing.Table

variable {table : Table} {room : Nat}

/-- The two ways in which a table is given room for some more keys. -/
inductive Roomy (room : Nat) : Table → Prop
  | created {limit keyStride valueStride : Nat} {table : Table}
      (hcreate : create limit room keyStride valueStride = .ok table) :
      Roomy room table
  | reserved {limit : Nat} {table : Table} (hreach : Reachable table)
      (hresult : (table.reserve limit room).result = .ok ()) :
      Roomy room (table.reserve limit room).state

theorem ReserveCase.admits {limit extra : Nat} {outcome : Outcome Table Unit}
    (hcase : ReserveCase limit table extra outcome)
    (hresult : outcome.result = .ok ()) :
    Capacity.Admits outcome.state.capacity (outcome.state.used + extra) := by
  cases hcase with
  | ample hfit => exact (Capacity.fits_of_fit hfit).admits
  | overflowed hfit => exact absurd hresult nofun
  | starved hfit hne hlimit => exact absurd hresult nofun
  | grown hfit hne hlimit hgrows =>
      have hadmits := (Capacity.fits_of_fit hfit).admits
      unfold Capacity.Admits used at hadmits ⊢
      dsimp only
      rw [hgrows.capacity_eq, hgrows.count_eq, hgrows.tombstones_eq]
      omega

theorem Roomy.admits (hroomy : Roomy room table) :
    table.WellFormed ∧
      Capacity.Admits table.capacity (table.used + room) := by
  cases hroomy with
  | created hcreate =>
      obtain ⟨hgood, capacity, hfit, -, rfl⟩ := wellFormed_create hcreate
      refine ⟨hgood, ?_⟩
      have hadmits := (Capacity.fits_of_fit hfit).admits
      simpa [Table.capacity, used] using hadmits
  | @reserved limit table hreach hresult =>
      have hcase := hreach.wellFormed.reserveCase limit room
      exact ⟨hcase.wellFormed hreach.wellFormed, hcase.admits hresult⟩

/-! ## One request -/

/-- As long as room is left for the keys that it adds, a request stays on the
slots that there are and leaves the rest of the room. -/
theorem UsageCase.undisturbed {request : Request}
    {outcome : Outcome Table Reply}
    (hcase : UsageCase table request outcome)
    (hcall : ¬ request.call.Reserves)
    (hroom : Capacity.Admits table.capacity (table.used + room))
    (hadd : outcome.isAddition.toNat ≤ room) :
    outcome.state.capacity = table.capacity ∧ outcome.rehash = none ∧
      Capacity.Admits table.capacity
        (outcome.state.used + (room - outcome.isAddition.toNat)) := by
  cases hcase with
  | rejected hreject => exact ⟨rfl, rfl, hroom⟩
  | starved hfull => exact ⟨rfl, rfl, hroom⟩
  | @inPlace next reply hroom' hreply hcapacity hused hkept =>
      change reply.isAddition.toNat ≤ room at hadd
      refine ⟨hcapacity, rfl, ?_⟩
      change Capacity.Admits table.capacity
        (next.used + (room - reply.isAddition.toNat))
      unfold Capacity.Admits at hroom ⊢
      omega
  | @grown fitted moved next reply hfit hne hreply hmoved hcapacity hcount
      htombstones =>
      change reply.isAddition.toNat ≤ room at hadd
      have hfull := Capacity.not_admits_of_fit_ne hfit hne
      rw [Call.demand_eq_gain hcall] at hfull
      unfold Capacity.Admits at hroom hfull
      omega

/-- A request is refused for its views alone as long as room is left for the
key that it tries to add. -/
theorem UsageCase.unrefused {request : Request}
    {outcome : Outcome Table Reply}
    (hcase : UsageCase table request outcome)
    (hcall : ¬ request.call.Reserves)
    (hroom : Capacity.Admits table.capacity (table.used + room))
    (hgain : request.call.gain table ≤ room) :
    outcome.isAddition.toNat = request.call.gain table ∧
      (request.call.Accepted table.keyStride table.valueStride →
        outcome.fault? = none) := by
  cases hcase with
  | rejected hreject =>
      exact ⟨(Call.gain_of_not_accepted hreject).symm,
        fun haccept => absurd haccept hreject⟩
  | starved hfull =>
      rw [Call.demand_eq_gain hcall] at hfull
      unfold Capacity.Admits at hroom hfull
      omega
  | inPlace hroom' hreply hcapacity hused hkept =>
      exact ⟨hreply, fun _ => rfl⟩
  | grown hfit hne hreply hmoved hcapacity hcount htombstones =>
      exact ⟨hreply, fun _ => rfl⟩

/-! ## A session -/

theorem WellFormed.undisturbed (hgood : table.WellFormed)
    {requests : List Request}
    (hcalls : ∀ request ∈ requests, ¬ request.call.Reserves)
    (hroom : Capacity.Admits table.capacity (table.used + room))
    (hadd : table.added requests ≤ room) :
    ∀ step ∈ table.steps requests,
      step.outcome.state.capacity = table.capacity ∧
        step.outcome.rehash = none := by
  induction requests generalizing table room with
  | nil => simp [steps]
  | cons request requests ih =>
      rw [added_cons] at hadd
      obtain ⟨hcall, hcalls⟩ := List.forall_mem_cons.mp hcalls
      obtain ⟨hcapacity, hrehash, hleft⟩ :=
        (hgood.usageCase request).undisturbed hcall hroom (by omega)
      rw [← hcapacity] at hleft
      have hlater := ih (hgood.perform request) hcalls hleft (by omega)
      rw [steps, List.forall_mem_cons]
      refine ⟨⟨hcapacity, hrehash⟩, ?_⟩
      intro step hstep
      rw [← hcapacity]
      exact hlater step hstep

theorem WellFormed.unrefused (hgood : table.WellFormed)
    {requests : List Request}
    (hcalls : ∀ request ∈ requests, ¬ request.call.Reserves)
    (hroom : Capacity.Admits table.capacity (table.used + room))
    (hattempt : table.attempted requests ≤ room) :
    table.added requests = table.attempted requests ∧
      ∀ step ∈ table.steps requests,
        step.request.call.Accepted table.keyStride table.valueStride →
          step.outcome.fault? = none := by
  induction requests generalizing table room with
  | nil => exact ⟨rfl, by simp [steps]⟩
  | cons request requests ih =>
      rw [attempted_cons] at hattempt
      obtain ⟨hcall, hcalls⟩ := List.forall_mem_cons.mp hcalls
      have hcase := hgood.usageCase request
      obtain ⟨hgain, hfault⟩ := hcase.unrefused hcall hroom (by omega)
      obtain ⟨hcapacity, -, hleft⟩ :=
        hcase.undisturbed hcall hroom (by omega)
      rw [← hcapacity] at hleft
      obtain ⟨hadded, hlater⟩ :=
        ih (hgood.perform request) hcalls hleft (by omega)
      have hsame := hgood.sameStrides_perform request
      rw [hsame.key_eq, hsame.value_eq] at hlater
      rw [added_cons, attempted_cons, steps, List.forall_mem_cons]
      exact ⟨by omega, hfault, hlater⟩

/-- What a table with room for some more keys does in sessions that do not
reserve any more.  A write of a new key counts as an attempt even if it fails,
so a session of few enough attempts has no failure at all. -/
structure KeepsRoom (room : Nat) (table : Table) : Prop where
  undisturbed :
    ∀ requests : List Request,
      (∀ request ∈ requests, ¬ request.call.Reserves) →
      table.added requests ≤ room →
      ∀ step ∈ table.steps requests,
        step.outcome.state.capacity = table.capacity ∧
          step.outcome.rehash = none
  unrefused :
    ∀ requests : List Request,
      (∀ request ∈ requests, ¬ request.call.Reserves) →
      table.attempted requests ≤ room →
      table.added requests = table.attempted requests ∧
        ∀ step ∈ table.steps requests,
          step.request.call.Accepted table.keyStride table.valueStride →
            step.outcome.fault? = none

theorem Roomy.keepsRoom (hroomy : Roomy room table) :
    table.KeepsRoom room := by
  obtain ⟨hgood, hroom⟩ := hroomy.admits
  constructor
  · intro requests hcalls hadd
    exact hgood.undisturbed hcalls hroom hadd
  · intro requests hcalls hattempt
    exact hgood.unrefused hcalls hroom hattempt

/-- One entry and one tombstone in eight slots, which leaves room for four. -/
def halfway : List Request :=
  [⟨8, .insert (.plain [0]) (.plain [])⟩,
    ⟨8, .insert (.plain [8]) (.plain [])⟩,
    ⟨8, .erase (.plain [0])⟩]

/-- Four new keys among a removal and a drain that is abandoned, with no
memory to be had. -/
def starving : List Request :=
  [⟨0, .insert (.plain [2]) (.plain [])⟩,
    ⟨0, .insert (.plain [1]) (.plain [])⟩,
    ⟨0, .erase (.plain [1])⟩,
    ⟨0, .insert (.plain [1]) (.plain [7])⟩,
    ⟨0, .drain 2 true⟩,
    ⟨0, .write (.plain [2]) (.plain [5])⟩,
    ⟨0, .insert (.plain [1]) (.plain [])⟩]

theorem keepsRoom_starving :
    let table := (run ⟨Slots.blank 8, 0, 0, 1, 1⟩ halfway).reserve 8 4
    table.result = .ok () ∧ table.state.used = 2 ∧
      table.state.attempted starving = 4 ∧
      (table.state.run starving).used = 6 ∧
      table.state.KeepsRoom 4 := by
  have hreach := reachable_blank.run halfway
  have hresult : ((run ⟨Slots.blank 8, 0, 0, 1, 1⟩ halfway).reserve 8
      4).result = .ok () := by decide +kernel
  exact ⟨hresult, by decide +kernel, by decide +kernel, by decide +kernel,
    (Roomy.reserved hreach hresult).keepsRoom⟩

/-- Seven new keys, with no memory to be had. -/
def crowding : List Request :=
  (List.range 7).map fun i =>
    ⟨0, .insert (.plain [UInt8.ofNat i]) (.plain [])⟩

/-- It is not enough that no more keys are added than there is room for: when
a table made for six has them, a seventh is refused. -/
theorem refused_crowding :
    let table : Table := ⟨Slots.blank 8, 0, 0, 1, 1⟩
    Roomy 6 table ∧ (∀ request ∈ crowding, ¬ request.call.Reserves) ∧
      table.added crowding = 6 ∧ table.attempted crowding = 7 ∧
      ¬ ∀ step ∈ table.steps crowding,
        step.request.call.Accepted table.keyStride table.valueStride →
          step.outcome.fault? = none := by
  intro table
  have hcreate : create 8 6 1 1 = .ok table := by decide +kernel
  have hcalls : ∀ request ∈ crowding, ¬ request.call.Reserves := by
    simp [crowding, Call.Reserves]
  refine ⟨.created hcreate, hcalls, by decide +kernel, by decide +kernel, ?_⟩
  intro hfaultless
  let last : Step :=
    ⟨table.run (crowding.take 6), ⟨0, .insert (.plain [6]) (.plain [])⟩⟩
  have hmem : last ∈ table.steps crowding :=
    List.mem_of_getElem? (show (table.steps crowding)[6]? = some last from rfl)
  have haccept : last.request.call.Accepted table.keyStride
      table.valueStride := ⟨⟨by decide, rfl⟩, rfl⟩
  have hrefused : last.outcome.fault? = some (.allocation 16) := by
    decide +kernel
  have hnone := hfaultless last hmem haccept
  exact absurd (hrefused.symm.trans hnone) nofun

end LinearProbing.Table
