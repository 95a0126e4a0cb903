import LinearProbing.Proofs.AbandonedDrain
import LinearProbing.Proofs.SlotUsage

/-!
# Histories of slots

In a stretch of a session that neither changes the capacity nor empties the
table, each slot has a simple life.  An empty slot may be filled, and is only
when it is the first on the walk of a new key.  Its entry then stays there,
whatever values it is given, until the key is taken out.  The slot is empty
again or a tombstone after that, and a tombstone is never used again.

The law of each call says which slots it touches (`Call.Law`).  From it comes
what can become of a single slot (`Slot.Becomes`), and from this, by induction
on the requests, what has become of it at the end of the stretch.
-/

namespace LinearProbing

/-! ## What can become of a slot -/

/-- What one call makes of a slot, if it takes out the given keys. -/
inductive Slot.Becomes (taken : List Bytes) : Slot → Slot → Prop
  | stays (slot : Slot) : Becomes taken slot slot
  | filled (entry : Entry) : Becomes taken .empty (.occupied entry)
  | revalued (entry : Entry) (value : Option Bytes) :
      Becomes taken (.occupied entry) (.occupied { entry with value := value })
  | vacated {entry : Entry} (htaken : entry.key ∈ taken) :
      Becomes taken (.occupied entry) .empty
  | buried {entry : Entry} (htaken : entry.key ∈ taken) :
      Becomes taken (.occupied entry) .tombstone

namespace Slot

variable {taken : List Bytes} {slot : Slot} {entry : Entry}

theorem Becomes.of_tombstone (hbecomes : Becomes taken .tombstone slot) :
    slot = .tombstone := by
  cases hbecomes
  rfl

theorem Becomes.of_occupied (hbecomes : Becomes taken (.occupied entry) slot)
    (hkept : entry.key ∉ taken) :
    ∃ value, slot = .occupied { entry with value := value } := by
  cases hbecomes with
  | stays => exact ⟨entry.value, rfl⟩
  | revalued entry value => exact ⟨value, rfl⟩
  | vacated htaken => exact absurd htaken hkept
  | buried htaken => exact absurd htaken hkept

theorem becomes_put {slots : Slots} {index : Nat}
    (hindex : index < slots.size)
    (hbecomes : (slots.get index).Becomes taken slot) (other : Nat) :
    (slots.get other).Becomes taken ((slots.put index slot).get other) := by
  rw [Slots.get_put hindex]
  split
  next heq => exact heq ▸ hbecomes
  next => exact .stays _

end Slot

namespace Table

variable {table : Table} {key value : View} {limit steps : Nat}

/-! ## What each call does to the slots -/

/-- A write to a table that does not grow: it touches the first empty slot on
the walk of a new key or the slot of a key that is there. -/
structure WritesSlot (table : Table) (key value : View)
    (outcome : Outcome Table Reply) : Prop where
  refused : outcome.fault? ≠ none → outcome.state = table
  added :
    outcome.fault? = none →
    key.bytes ∉ table.slots.entries.map Entry.key →
    ∃ step, table.slots.FirstEmpty (fnv1a key.bytes) step ∧
      let index := Ring.walk table.capacity (fnv1a key.bytes) step
      outcome.state =
        { table with
          slots := table.slots.put index (.occupied (.ofViews key value))
          count := table.count + 1 }
  replaced :
    outcome.fault? = none →
    ∀ index entry, table.slots.get index = .occupied entry →
      entry.key = key.bytes →
      let written := { entry with value := value.stored }
      outcome.state =
        { table with slots := table.slots.put index (.occupied written) }

/-- An erasure: it touches the slot of its key, and the next slot of the ring
decides whether a tombstone is left. -/
structure ErasesSlot (table : Table) (key : View)
    (outcome : Outcome Table Reply) : Prop where
  refused : outcome.fault? ≠ none → outcome.state = table
  missed :
    key.bytes ∉ table.slots.entries.map Entry.key → outcome.state = table
  erased :
    outcome.fault? = none →
    ∀ index entry, table.slots.get index = .occupied entry →
      entry.key = key.bytes →
      outcome.result = .ok (.erased (some entry)) ∧
        outcome.state =
          if table.slots.get (Ring.after table.capacity index) = .empty then
            { table with
              slots := table.slots.put index .empty
              count := table.count - 1 }
          else
            { table with
              slots := table.slots.put index .tombstone
              count := table.count - 1
              tombstones := table.tombstones + 1 }

/-- An abandoned drain: it buries the entries that it yielded. -/
structure BuriesSlots (table : Table) (steps : Nat)
    (outcome : Outcome Table Reply) : Prop where
  result_eq :
    outcome.result = .ok (.listed (table.slots.entries.take steps))
  get_eq :
    ∀ index, outcome.state.slots.get index =
      if ∃ entry ∈ table.slots.entries.take steps,
          table.slots.get index = .occupied entry then
        .tombstone
      else
        table.slots.get index

end Table

namespace Call

/-- The call leaves every slot empty. -/
def Empties : Call → Prop
  | .clear | .drain _ false => True
  | .write _ _ | .insert _ _ | .get _ | .contains _ | .erase _ |
    .reserve _ | .list _ | .drain _ true => False

instance : (call : Call) → Decidable call.Empties
  | .clear | .drain _ false => inferInstanceAs (Decidable True)
  | .write _ _ | .insert _ _ | .get _ | .contains _ | .erase _ |
    .reserve _ | .list _ | .drain _ true => inferInstanceAs (Decidable False)

/-- The keys of the entries that a call took out and answered with. -/
def taken : Call → Except Fault Reply → List Bytes
  | .erase _, .ok (.erased (some entry)) => [entry.key]
  | .drain _ _, .ok (.listed entries) => entries.map Entry.key
  | _, _ => []

/-- What a call does to the slots of a table that keeps its capacity.  There
is no law for the calls that empty the table. -/
def Law (table : Table) (outcome : Outcome Table Reply) : Call → Prop
  | .write key value | .insert key value =>
      table.WritesSlot key.val value.val outcome
  | .erase key => table.ErasesSlot key.val outcome
  | .drain steps true => table.BuriesSlots steps outcome
  | .get _ | .contains _ | .reserve _ | .list _ => outcome.state = table
  | .clear | .drain _ false => True

end Call

namespace Table

variable {table : Table} {key value : View} {limit steps : Nat}

theorem WellFormed.index_unique (hgood : table.WellFormed)
    {index other : Nat} {entry found : Entry}
    (hslot : table.slots.get index = .occupied entry)
    (hother : table.slots.get other = .occupied found)
    (hkey : entry.key = found.key) : index = other ∧ entry = found := by
  have hindex :=
    hgood.sound.distinct index other entry found hslot hother hkey
  subst hindex
  rw [hslot, Slot.occupied.injEq] at hother
  exact ⟨rfl, hother⟩

theorem WriteCase.writesSlot {outcome : Outcome Table Written}
    (hcase : WriteCase limit table key value outcome)
    (hgood : table.WellFormed)
    (hcapacity : outcome.state.capacity = table.capacity)
    (reply : Written → Reply) :
    table.WritesSlot key value (outcome.map reply) := by
  cases hcase with
  | rejected hfault => exact ⟨fun _ => rfl, nofun, nofun⟩
  | overflowed haccept habsent hfull hword =>
      exact ⟨fun _ => rfl, nofun, nofun⟩
  | starved haccept habsent hfull hword hlimit =>
      exact ⟨fun _ => rfl, nofun, nofun⟩
  | replaced haccept hslot hkey =>
      constructor
      · intro hfault
        exact absurd rfl hfault
      · intro _ habsent
        exact absurd (Slots.mem_keys.mpr ⟨_, _, hslot, hkey⟩) habsent
      · intro _ index entry hfound hsame
        obtain ⟨rfl, rfl⟩ :=
          hgood.index_unique hslot hfound (hkey.trans hsame.symm)
        rfl
  | seated haccept habsent hfirst hload =>
      constructor
      · intro hfault
        exact absurd rfl hfault
      · intro _ _
        exact ⟨_, hfirst, rfl⟩
      · intro _ index entry hfound hsame
        exact absurd (Slots.mem_keys.mpr ⟨_, _, hfound, hsame⟩) habsent
  | grown haccept habsent hfirst hfull hword hlimit hgrows =>
      exact absurd (hgrows.capacity_eq.symm.trans hcapacity)
        hgood.double_ne

/-- Keys are distinct, so an erasure that found its key in one slot has found
it in all that hold it. -/
theorem WellFormed.erasesSlot_of_found (hgood : table.WellFormed)
    {index : Nat} {entry : Entry} {outcome : Outcome Table Reply}
    (hslot : table.slots.get index = .occupied entry)
    (hkey : entry.key = key.bytes)
    (hresult : outcome.result = .ok (.erased (some entry)))
    (hstate : outcome.state =
      if table.slots.get (Ring.after table.capacity index) = .empty then
        table.vacate index
      else
        table.bury index) :
    table.ErasesSlot key outcome := by
  constructor
  · intro hfault
    rw [Outcome.fault?, hresult] at hfault
    exact absurd rfl hfault
  · intro habsent
    exact absurd (Slots.mem_keys.mpr ⟨_, _, hslot, hkey⟩) habsent
  · intro _ other found hfound hsame
    obtain ⟨rfl, rfl⟩ :=
      hgood.index_unique hslot hfound (hkey.trans hsame.symm)
    exact ⟨hresult, hstate⟩

theorem EraseCase.erasesSlot {outcome : Outcome Table (Option Entry)}
    (hcase : EraseCase table key outcome) (hgood : table.WellFormed) :
    table.ErasesSlot key (outcome.map .erased) := by
  cases hcase with
  | rejected hfault => exact ⟨fun _ => rfl, fun _ => rfl, nofun⟩
  | missing haccept habsent =>
      refine ⟨fun _ => rfl, fun _ => rfl, ?_⟩
      intro _ index entry hfound hsame
      exact absurd (Slots.mem_keys.mpr ⟨_, _, hfound, hsame⟩) habsent
  | vacated haccept hslot hkey hnext =>
      exact hgood.erasesSlot_of_found hslot hkey rfl (if_pos hnext).symm
  | buried haccept hslot hkey hnext =>
      exact hgood.erasesSlot_of_found hslot hkey rfl (if_neg hnext).symm

theorem ReserveCase.state_eq {extra : Nat} {outcome : Outcome Table Unit}
    (hcase : ReserveCase limit table extra outcome)
    (hcapacity : outcome.state.capacity = table.capacity) :
    outcome.state = table := by
  cases hcase with
  | ample hfit => rfl
  | overflowed hfit => rfl
  | starved hfit hne hlimit => rfl
  | grown hfit hne hlimit hgrows =>
      exact absurd (hgrows.capacity_eq.symm.trans hcapacity) hne

theorem WellFormed.buriesSlots (hgood : table.WellFormed) (limit steps : Nat) :
    table.BuriesSlots steps (table.perform ⟨limit, .drain steps true⟩) where
  result_eq :=
    congrArg (fun entries => Except.ok (Reply.listed entries))
      (hgood.drain_onward.take steps).1
  get_eq := hgood.drain_onward.get_take steps

theorem WellFormed.law (hgood : table.WellFormed) (request : Request)
    (hcapacity :
      (table.perform request).state.capacity = table.capacity) :
    request.call.Law table (table.perform request) := by
  rcases request with ⟨limit, call⟩
  cases call with
  | write key value =>
      exact (hgood.writeCase limit key.2 value.2).writesSlot hgood hcapacity
        .written
  | insert key value =>
      have hlaw :=
        (hgood.writeCase limit key.2 value.2).writesSlot hgood hcapacity
          fun written => .inserted written.isNew
      rwa [← Outcome.map_map] at hlaw
  | get key => exact state_ofExcept table (table.get key.val)
  | contains key => rfl
  | erase key => exact (hgood.eraseCase key.val).erasesSlot hgood
  | reserve extra =>
      exact (hgood.reserveCase limit extra).state_eq hcapacity
  | clear => trivial
  | list steps => rfl
  | drain steps abandoned =>
      cases abandoned with
      | true => exact hgood.buriesSlots limit steps
      | false => trivial

/-! ## From the laws to single slots -/

theorem WritesSlot.becomes {outcome : Outcome Table Reply}
    (hlaw : table.WritesSlot key value outcome) (hgood : table.WellFormed)
    (taken : List Bytes) (index : Nat) :
    (table.slots.get index).Becomes taken
      (outcome.state.slots.get index) := by
  by_cases hdone : outcome.fault? = none
  · by_cases hkey : key.bytes ∈ table.slots.entries.map Entry.key
    · obtain ⟨position, entry, hslot, hsame⟩ := Slots.mem_keys.mp hkey
      rw [hlaw.replaced hdone position entry hslot hsame]
      apply Slot.becomes_put (Slots.lt_size_of_occupied hslot)
      rw [hslot]
      exact .revalued entry value.stored
    · obtain ⟨step, hfirst, hstate⟩ := hlaw.added hdone hkey
      have hempty : table.slots.get
          (Ring.walk table.slots.size (fnv1a key.bytes) step) = .empty :=
        hfirst.empty
      rw [hstate]
      apply Slot.becomes_put (Ring.walk_lt hgood.sound.binary _ _)
      rw [hempty]
      exact .filled _
  · rw [hlaw.refused hdone]
    exact .stays _

theorem ErasesSlot.becomes {key : AlignedView}
    {outcome : Outcome Table Reply}
    (hlaw : table.ErasesSlot key.val outcome) (index : Nat) :
    (table.slots.get index).Becomes
      ((Call.erase key).taken outcome.result)
      (outcome.state.slots.get index) := by
  by_cases hdone : outcome.fault? = none
  · by_cases hkey : key.val.bytes ∈ table.slots.entries.map Entry.key
    · obtain ⟨position, entry, hslot, hsame⟩ := Slots.mem_keys.mp hkey
      have hposition := Slots.lt_size_of_occupied hslot
      obtain ⟨hresult, hstate⟩ :=
        hlaw.erased hdone position entry hslot hsame
      have htaken : entry.key ∈ (Call.erase key).taken outcome.result := by
        rw [hresult]
        exact List.mem_singleton_self _
      rw [hstate]
      split
      · apply Slot.becomes_put hposition
        rw [hslot]
        exact .vacated htaken
      · apply Slot.becomes_put hposition
        rw [hslot]
        exact .buried htaken
    · rw [hlaw.missed hkey]
      exact .stays _
  · rw [hlaw.refused hdone]
    exact .stays _

theorem BuriesSlots.becomes {outcome : Outcome Table Reply}
    (hlaw : table.BuriesSlots steps outcome) (abandoned : Bool)
    (index : Nat) :
    (table.slots.get index).Becomes
      ((Call.drain steps abandoned).taken outcome.result)
      (outcome.state.slots.get index) := by
  rw [hlaw.get_eq, hlaw.result_eq]
  split
  next hyielded =>
      obtain ⟨entry, hentry, hslot⟩ := hyielded
      rw [hslot]
      exact .buried (List.mem_map_of_mem hentry)
  next => exact .stays _

theorem becomes_of_law {call : Call} {outcome : Outcome Table Reply}
    (hlaw : call.Law table outcome) (hgood : table.WellFormed)
    (hkeeps : ¬ call.Empties) (index : Nat) :
    (table.slots.get index).Becomes (call.taken outcome.result)
      (outcome.state.slots.get index) := by
  cases call with
  | write key value => exact WritesSlot.becomes hlaw hgood _ index
  | insert key value => exact WritesSlot.becomes hlaw hgood _ index
  | erase key => exact ErasesSlot.becomes hlaw index
  | clear => exact absurd trivial hkeeps
  | drain steps abandoned =>
      cases abandoned with
      | true => exact BuriesSlots.becomes hlaw true index
      | false => exact absurd trivial hkeeps
  | get | contains | reserve | list =>
      have hsame : outcome.state = table := hlaw
      rw [hsame]
      exact .stays _

/-! ## Calm stretches -/

/-- The step changes no capacity and does not empty the table. -/
def Step.Calm (step : Step) : Prop :=
  ¬ step.request.call.Empties ∧
    step.outcome.state.capacity = step.table.capacity

instance (step : Step) : Decidable step.Calm :=
  inferInstanceAs (Decidable (_ ∧ _))

def Step.taken (step : Step) : List Bytes :=
  step.request.call.taken step.outcome.result

theorem Step.Calm.becomes {step : Step} (hcalm : step.Calm)
    (hgood : step.table.WellFormed) (index : Nat) :
    (step.table.slots.get index).Becomes step.taken
      (step.outcome.state.slots.get index) :=
  becomes_of_law (hgood.law step.request hcalm.2) hgood hcalm.1 index

theorem WellFormed.run_tombstone (hgood : table.WellFormed)
    {requests : List Request}
    (hcalm : ∀ step ∈ table.steps requests, step.Calm) {index : Nat}
    (hslot : table.slots.get index = .tombstone) :
    (table.run requests).slots.get index = .tombstone := by
  induction requests generalizing table with
  | nil => exact hslot
  | cons request requests ih =>
      rw [steps, List.forall_mem_cons] at hcalm
      have hbecomes := hcalm.1.becomes hgood index
      dsimp only at hbecomes
      rw [hslot] at hbecomes
      exact ih (hgood.perform request) hcalm.2 hbecomes.of_tombstone

/-- An entry is written to, if at all, until its key is taken out. -/
theorem WellFormed.run_occupied (hgood : table.WellFormed)
    {requests : List Request}
    (hcalm : ∀ step ∈ table.steps requests, step.Calm) {index : Nat}
    {entry : Entry} (hslot : table.slots.get index = .occupied entry)
    (hkept : ∀ step ∈ table.steps requests, entry.key ∉ step.taken) :
    ∃ value, (table.run requests).slots.get index =
      .occupied { entry with value := value } := by
  induction requests generalizing table entry with
  | nil => exact ⟨entry.value, hslot⟩
  | cons request requests ih =>
      rw [steps, List.forall_mem_cons] at hcalm hkept
      have hbecomes := hcalm.1.becomes hgood index
      dsimp only at hbecomes
      rw [hslot] at hbecomes
      obtain ⟨value, hnext⟩ := hbecomes.of_occupied hkept.1
      -- the induction hypothesis is about the entry with its new value
      have hlast := ih (hgood.perform request) hcalm.2 hnext hkept.2
      exact hlast

/-- What a calm stretch of a session does to the slots. -/
structure Steady (table : Table) (requests : List Request) : Prop where
  law :
    ∀ step ∈ table.steps requests,
      step.request.call.Law step.table step.outcome
  becomes :
    ∀ step ∈ table.steps requests, ∀ index,
      (step.table.slots.get index).Becomes step.taken
        (step.outcome.state.slots.get index)
  tombstone_stays :
    ∀ index, table.slots.get index = .tombstone →
      (table.run requests).slots.get index = .tombstone
  entry_stays :
    ∀ index entry, table.slots.get index = .occupied entry →
      (∀ step ∈ table.steps requests, entry.key ∉ step.taken) →
      ∃ value, (table.run requests).slots.get index =
        .occupied { entry with value := value }

theorem Reachable.steady (hreach : Reachable table)
    {requests : List Request}
    (hcalm : ∀ step ∈ table.steps requests, step.Calm) :
    table.Steady requests := by
  have hgood := hreach.wellFormed
  constructor
  · intro step hstep
    have hstart := hgood.of_mem_steps hstep
    exact hstart.law step.request (hcalm step hstep).2
  · intro step hstep
    exact (hcalm step hstep).becomes (hgood.of_mem_steps hstep)
  · intro index hslot
    exact hgood.run_tombstone hcalm hslot
  · intro index entry hslot hkept
    exact hgood.run_occupied hcalm hslot hkept

/-- An erasure across the end of the ring, new keys that walk past its
tombstone, a new value, a key that finds no room, an erasure at the end of a
walk and an abandoned drain. -/
def unhurried : List Request :=
  [⟨8, .erase (.plain [0])⟩,
    ⟨8, .insert (.plain [16]) (.plain [])⟩,
    ⟨8, .insert (.plain [23]) (.plain [])⟩,
    ⟨8, .write (.plain [8]) (.plain [4])⟩,
    ⟨8, .insert (.plain [2]) (.plain [])⟩,
    ⟨8, .reserve 0⟩,
    ⟨8, .get (.plain [2])⟩,
    ⟨8, .erase (.plain [23])⟩,
    ⟨8, .drain 1 true⟩]

theorem steady_unhurried :
    let table := run ⟨Slots.blank 8, 0, 0, 1, 1⟩ roundTheEnd
    let last := table.run unhurried
    Reachable table ∧ table.slotMap = "oo....oo" ∧
      last.slotMap = "xoo...ox" ∧
      (∀ step ∈ table.steps unhurried, step.Calm) ∧
      (∃ value, last.slots.get 1 = .occupied ⟨[8], value, fnv1a [8]⟩) ∧
      table.Steady unhurried := by
  intro table last
  have hreach : Reachable table := reachable_blank.run roundTheEnd
  have hcalm : ∀ step ∈ table.steps unhurried, step.Calm := by
    decide +kernel
  have hsteady := hreach.steady hcalm
  have hslot : table.slots.get 1 =
      .occupied ⟨[8], some [3], fnv1a [8]⟩ := by
    decide +kernel
  have hkept : ∀ step ∈ table.steps unhurried, [8] ∉ step.taken := by
    decide +kernel
  exact ⟨hreach, by decide +kernel, by decide +kernel, hcalm,
    hsteady.entry_stays 1 _ hslot hkept, hsteady⟩

end Table

end LinearProbing
