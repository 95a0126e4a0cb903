import LinearProbing.Proofs.LeastCapacity
import LinearProbing.Proofs.SlotUsage

/-!
# Growing one key at a time

A table that grows as keys come in never has more slots than it would have
had if it had been created for all of them (`GrowsGradually.bounded`), and in
sessions that take nothing out it has exactly as many
(`GrowsGradually.exact`).

The slots in use are never more than the keys that were added, since each
such slot was taken by one of them; tombstones keep a slot in use but take no
other.  Each growth fits the capacity for the slots in use at that moment,
and fits from a least capacity compose (`Capacity.isLeast_refit`).
-/

namespace LinearProbing.Table

variable {table : Table} {room added : Nat}

/-! ## The capacity never falls -/

theorem UsageCase.capacity_le {request : Request}
    {outcome : Outcome Table Reply}
    (hcase : UsageCase table request outcome) :
    table.capacity ≤ outcome.state.capacity := by
  cases hcase with
  | rejected hreject => exact le_rfl
  | starved hfull => exact le_rfl
  | inPlace hroom hreply hcapacity hused hkept => exact hcapacity.ge
  | grown hfit hne hreply hmoved hcapacity hcount htombstones =>
      exact (Capacity.fits_of_fit hfit).le.trans hcapacity.ge

theorem WellFormed.capacity_le_run (hgood : table.WellFormed)
    (requests : List Request) :
    table.capacity ≤ (table.run requests).capacity := by
  induction requests generalizing table with
  | nil => exact le_rfl
  | cons request requests ih =>
      exact (hgood.usageCase request).capacity_le.trans
        (ih (hgood.perform request))

/-! ## At most the capacity for all keys -/

/-- No more slots in use than keys were added, and no more slots than these
and the initial room need. -/
structure Restrained (room added : Nat) (table : Table) : Prop where
  used_le : table.used ≤ added
  capacity_le :
    ∀ size ∈ Capacity.candidates Capacity.least (max room added),
      table.capacity ≤ size

theorem UsageCase.restrained {request : Request}
    {outcome : Outcome Table Reply}
    (hcase : UsageCase table request outcome) (hgood : table.WellFormed)
    (hcall : ¬ request.call.Reserves)
    (hkeeps : table.Restrained room added) :
    outcome.state.Restrained room
      (added + outcome.isAddition.toNat) := by
  have hused := hkeeps.used_le
  cases hcase with
  | rejected hreject => exact hkeeps
  | starved hfull => exact hkeeps
  | @inPlace next reply hroom hreply hcapacity hgain hkept =>
      change next.Restrained room (added + reply.isAddition.toNat)
      constructor
      · omega
      · intro size hsize
        have hfewer : max room added ≤
            max room (added + reply.isAddition.toNat) := by omega
        rw [hcapacity]
        exact hkeeps.capacity_le size
          (Capacity.candidates_anti hfewer hsize)
  | @grown fitted moved next reply hfit hne hreply hmoved hcapacity hcount
      htombstones =>
      change next.Restrained room (added + reply.isAddition.toNat)
      rw [Call.demand_eq_gain hcall] at hfit
      have hleast := Capacity.isLeast_of_fit hgood.sound.binary hfit
      constructor
      · unfold used at hused ⊢
        omega
      · intro size hsize
        have hfewer : max room added ≤
            max room (added + reply.isAddition.toNat) := by omega
        have hlarger := hkeeps.capacity_le size
          (Capacity.candidates_anti hfewer hsize)
        rw [hcapacity]
        exact hleast.2 ⟨hsize.1, hlarger, hsize.2.2.mono (by omega)⟩

theorem Restrained.run (hkeeps : table.Restrained room added)
    (hgood : table.WellFormed) {requests : List Request}
    (hcalls : ∀ request ∈ requests, ¬ request.call.Reserves) :
    (table.run requests).Restrained room
      (added + table.added requests) := by
  induction requests generalizing table added with
  | nil => exact hkeeps
  | cons request requests ih =>
      obtain ⟨hcall, hcalls⟩ := List.forall_mem_cons.mp hcalls
      have hnext :=
        (hgood.usageCase request).restrained hgood hcall hkeeps
      rw [added_cons, ← Nat.add_assoc]
      exact ih hnext (hgood.perform request) hcalls

/-! ## Exactly the capacity for all keys -/

/-- No key that was added is gone, and the capacity is the least one for
their number and the initial room. -/
structure Fitted (room added : Nat) (table : Table) : Prop where
  count_eq : table.count = added
  tombstones_eq : table.tombstones = 0
  capacity_least :
    IsLeast (Capacity.candidates Capacity.least (max room added))
      table.capacity

theorem Fitted.restrained (hfitted : table.Fitted room added) :
    table.Restrained room added where
  used_le := by
    rw [used, hfitted.count_eq, hfitted.tombstones_eq, Nat.add_zero]
  capacity_le := fun _ hsize => hfitted.capacity_least.2 hsize

theorem UsageCase.fitted {request : Request}
    {outcome : Outcome Table Reply}
    (hcase : UsageCase table request outcome) (hgood : table.WellFormed)
    (hcall : ¬ request.call.Reserves)
    (hremoves : ¬ request.call.Removes outcome.result)
    (hfitted : table.Fitted room added) :
    outcome.state.Fitted room (added + outcome.isAddition.toNat) := by
  obtain ⟨hadded, hclean, hleast⟩ := hfitted
  have hused : table.used = added := by
    unfold used
    omega
  have hadmits : Capacity.Admits table.capacity (max room added) :=
    hleast.1.2.2
  cases hcase with
  | rejected hreject => exact ⟨hadded, hclean, hleast⟩
  | starved hfull => exact ⟨hadded, hclean, hleast⟩
  | @inPlace next reply hroom hreply hcapacity hgain hkept =>
      change next.Fitted room (added + reply.isAddition.toNat)
      obtain ⟨hnext, hclean'⟩ := hkept hremoves
      rw [Call.demand_eq_gain hcall, hused, ← hreply] at hroom
      have hroom' : Capacity.Admits table.capacity
          (max room (added + reply.isAddition.toNat)) :=
        (hadmits.mono (le_max_left _ _)).max hroom
      refine ⟨by omega, hclean'.trans hclean, ?_⟩
      rw [hcapacity]
      exact Capacity.isLeast_refit hleast (by omega)
        (Capacity.isLeast_of_admits hgood.sound.binary hroom')
  | @grown fitted moved next reply hfit hne hreply hmoved hcapacity hcount
      htombstones =>
      change next.Fitted room (added + reply.isAddition.toNat)
      have hfull := Capacity.not_admits_of_fit_ne hfit hne
      rw [Call.demand_eq_gain hcall, hused, ← hreply] at hfit hfull
      -- the room that was asked for at first was there, so it is the new
      -- key that needs the growth
      have hneeded : max room (added + reply.isAddition.toNat) =
          added + reply.isAddition.toNat := by
        unfold Capacity.Admits at hadmits hfull
        omega
      refine ⟨by omega, htombstones, ?_⟩
      rw [hcapacity, hneeded]
      exact Capacity.isLeast_refit hleast (by omega)
        (Capacity.isLeast_of_fit hgood.sound.binary hfit)

theorem Fitted.run (hfitted : table.Fitted room added)
    (hgood : table.WellFormed) {requests : List Request}
    (hcalls : ∀ request ∈ requests, ¬ request.call.Reserves)
    (hremoves : ∀ step ∈ table.steps requests,
      ¬ step.request.call.Removes step.outcome.result) :
    (table.run requests).Fitted room (added + table.added requests) := by
  induction requests generalizing table added with
  | nil => exact hfitted
  | cons request requests ih =>
      obtain ⟨hcall, hcalls⟩ := List.forall_mem_cons.mp hcalls
      rw [steps, List.forall_mem_cons] at hremoves
      have hnext := (hgood.usageCase request).fitted hgood hcall
        hremoves.1 hfitted
      rw [added_cons, ← Nat.add_assoc]
      exact ih hnext (hgood.perform request) hcalls hremoves.2

/-! ## A created table -/

theorem create_eq_ok {limit capacity keyStride valueStride : Nat}
    (hkey : 0 < keyStride) (hvalue : 0 < valueStride)
    (hfit : Capacity.fit Capacity.least room = .ok capacity)
    (hlimit : capacity ≤ limit) :
    create limit room keyStride valueStride =
      .ok ⟨Slots.blank capacity, 0, 0, keyStride, valueStride⟩ := by
  have hstrides : ¬ (keyStride = 0 ∨ valueStride = 0) := by omega
  rw [create, if_neg hstrides, hfit]
  simp only [Slots.allocate, if_neg (Nat.not_lt.mpr hlimit)]

/-- The capacities that sessions lead to on a table that was created with some
room.  What a session needs is the number of keys that it added, or the room
if that is more. -/
structure GrowsGradually (room : Nat) (table : Table) : Prop where
  bounded :
    ∀ requests : List Request,
      (∀ request ∈ requests, ¬ request.call.Reserves) →
      ∃ enough,
        IsLeast (Capacity.candidates Capacity.least
          (max room (table.added requests))) enough ∧
        (table.run requests).capacity ≤ enough
  exact :
    ∀ requests : List Request,
      (∀ request ∈ requests, ¬ request.call.Reserves) →
      (∀ step ∈ table.steps requests,
        ¬ step.request.call.Removes step.outcome.result) →
      let needed := max room (table.added requests)
      let last := table.run requests
      IsLeast (Capacity.candidates Capacity.least needed) last.capacity ∧
        ∀ limit ≥ last.capacity,
          create limit needed table.keyStride table.valueStride =
            .ok ⟨Slots.blank last.capacity, 0, 0, table.keyStride,
              table.valueStride⟩
  monotone :
    ∀ earlier later : List Request,
      (table.run earlier).capacity ≤
        (table.run (earlier ++ later)).capacity

theorem growsGradually_create {limit keyStride valueStride : Nat}
    (hcreate : create limit room keyStride valueStride = .ok table) :
    table.GrowsGradually room := by
  have hreach := Reachable.create hcreate
  obtain ⟨hgood, capacity, hfit, -, htable⟩ := wellFormed_create hcreate
  have hleast : IsLeast
      (Capacity.candidates Capacity.least (max room 0)) table.capacity := by
    rw [Nat.max_zero, htable, Table.capacity, Slots.size_blank]
    exact Capacity.isLeast_of_fit ⟨3, rfl⟩ hfit
  have hfitted : table.Fitted room 0 :=
    ⟨by rw [htable], by rw [htable], hleast⟩
  constructor
  · intro requests hcalls
    obtain ⟨enough, henough⟩ := Capacity.exists_isLeast Capacity.least
      (max room (table.added requests))
    have hlast := hfitted.restrained.run hgood hcalls
    rw [Nat.zero_add] at hlast
    exact ⟨enough, henough, hlast.capacity_le enough henough.1⟩
  · intro requests hcalls hremoves
    have hlast := hfitted.run hgood hcalls hremoves
    rw [Nat.zero_add] at hlast
    have hword := (hreach.run requests).wellFormed.lt_wordSize
    have hsame := (Capacity.fit_eq_ok_iff ⟨3, rfl⟩ (by decide)).mpr
      ⟨hlast.capacity_least, hword⟩
    refine ⟨hlast.capacity_least, ?_⟩
    intro limit hlimit
    exact create_eq_ok hgood.keyStride_pos hgood.valueStride_pos hsame
      hlimit
  · intro earlier later
    have hearlier := (hreach.run earlier).wellFormed
    have hrun := hearlier.capacity_le_run later
    unfold run at hrun ⊢
    rwa [List.foldl_append]

/-- Seven keys, one of them written twice and one refused at first. -/
def climbing : List Request :=
  [⟨16, .insert (.plain [0]) (.plain [])⟩,
    ⟨16, .insert (.plain [8]) (.plain [])⟩,
    ⟨16, .insert (.plain [8]) (.plain [1])⟩,
    ⟨16, .write (.plain [1]) (.plain [])⟩,
    ⟨16, .insert (.plain [2]) (.plain [])⟩,
    ⟨16, .insert (.plain [3]) (.plain [])⟩,
    ⟨16, .insert (.plain [4]) (.plain [])⟩,
    ⟨8, .insert (.plain [5]) (.plain [])⟩,
    ⟨16, .insert (.plain [5]) (.plain [])⟩]

theorem growsGradually_climbing :
    let start : Table := ⟨Slots.blank 8, 0, 0, 1, 1⟩
    create 8 5 1 1 = .ok start ∧ start.added climbing = 7 ∧
      (start.run climbing).capacity = 16 ∧ start.GrowsGradually 5 := by
  have hcreate : create 8 5 1 1 = .ok ⟨Slots.blank 8, 0, 0, 1, 1⟩ := rfl
  exact ⟨hcreate, by decide +kernel, by decide +kernel,
    growsGradually_create hcreate⟩

end LinearProbing.Table
