import LinearProbing.Proofs.Layout

/-!
# Settling in another order

Entries settled in two orders take the same slots and lie equally far from
home in sum.  It is enough to exchange two neighbours of the order.  If their
walks find room in different slots, neither is in the way of the other.  If
they find room in the same slot, the later of the two goes on to the next
empty slot of the ring, and the way from the one slot to the other is the
same for both, since walks that meet go on together.

The general statement follows by induction on the permutation
(`settleAll_perm`).
-/

namespace LinearProbing.Slots

variable {slots left right : Slots} {first second entry : Entry}
  {hash : UInt32} {index step : Nat}

/-- An array that a ring of machine words addresses. -/
structure Ringed (slots : Slots) : Prop where
  binary : Ring.IsBinary slots.size
  word : slots.size ≤ UInt64.size

theorem Ringed.put (hring : slots.Ringed) (index : Nat) (slot : Slot) :
    (slots.put index slot).Ringed := by
  constructor
  · rw [size_put]
    exact hring.binary
  · rw [size_put]
    exact hring.word

def vacancies (slots : Slots) : Nat :=
  slots.tally Slot.isEmpty

theorem vacancies_blank (size : Nat) : (blank size).vacancies = size := by
  rw [vacancies, tally_blank]
  rfl

theorem exists_empty_of_vacancies (hroom : 0 < slots.vacancies) :
    ∃ index < slots.size, slots.get index = .empty := by
  obtain ⟨index, hindex, hempty⟩ := exists_of_tally_pos hroom
  exact ⟨index, hindex, (Slot.isEmpty_iff _).mp hempty⟩

theorem vacancies_put (hindex : index < slots.size)
    (hempty : slots.get index = .empty) (entry : Entry) :
    (slots.put index (.occupied entry)).vacancies + 1 = slots.vacancies := by
  have htally := tally_put hindex (.occupied entry) Slot.isEmpty
  rw [hempty] at htally
  exact htally

theorem get_put_occupied_eq_empty_iff (hindex : index < slots.size)
    (position : Nat) :
    (slots.put index (.occupied entry)).get position = .empty ↔
      position ≠ index ∧ slots.get position = .empty := by
  rw [get_put hindex]
  by_cases heq : position = index
  · simp [heq]
  · simp [heq]

theorem vacancies_eq_count (slots : Slots) :
    slots.vacancies = slots.marks.count '.' := by
  unfold vacancies tally marks List.count
  rw [List.countP_map]
  apply List.countP_congr
  intro slot _
  cases slot <;> simp [Slot.isEmpty, Slot.mark]

theorem Alike.vacancies_eq (halike : left.Alike right) :
    left.vacancies = right.vacancies := by
  rw [vacancies_eq_count, halike.marks_eq, vacancies_eq_count]

theorem Alike.ringed (halike : left.Alike right) (hring : left.Ringed) :
    right.Ringed := by
  have hsize := halike.size_eq
  exact ⟨hsize ▸ hring.binary, hsize ▸ hring.word⟩

/-! ## Settling one entry -/

theorem Alike.settle (halike : left.Alike right) (hring : left.Ringed)
    (hroom : 0 < left.vacancies) (entry : Entry) :
    ∃ next other, left.settle entry = .ok next ∧
      right.settle entry = .ok other ∧ next.Alike other ∧ next.Ringed ∧
      next.vacancies + 1 = left.vacancies := by
  obtain ⟨step, hfirst⟩ := exists_firstEmpty hring.binary
    (exists_empty_of_vacancies hroom) entry.hash
  refine ⟨_, _, settle_of_firstEmpty hring.binary hfirst,
    settle_of_firstEmpty (halike.ringed hring).binary
      (halike.firstEmpty hfirst),
    halike.put_first hring.binary hring.word hfirst, hring.put _ _, ?_⟩
  exact vacancies_put (Ring.walk_lt hring.binary _ _) hfirst.empty entry

theorem Alike.settleAll (halike : left.Alike right) (hring : left.Ringed)
    {entries : List Entry} (hroom : entries.length ≤ left.vacancies) :
    ∃ next other, left.settleAll entries = .ok next ∧
      right.settleAll entries = .ok other ∧ next.Alike other ∧
      next.Ringed ∧
      next.vacancies + entries.length = left.vacancies := by
  induction entries generalizing left right with
  | nil => exact ⟨left, right, rfl, rfl, halike, hring, rfl⟩
  | cons entry entries ih =>
      rw [List.length_cons] at hroom
      obtain ⟨next, other, hnext, hother, halike', hring', hleft⟩ :=
        halike.settle hring (by omega) entry
      obtain ⟨last, end', hlast, hend, halikeLast, hringLast, hrest⟩ :=
        ih halike' hring' (by omega)
      refine ⟨last, end', ?_, ?_, halikeLast, hringLast, ?_⟩
      · rw [settleAll_cons hnext, hlast]
      · rw [settleAll_cons hother, hend]
      · rw [List.length_cons]
        omega

/-! ## Exchanging two entries -/

/-- An entry elsewhere leaves the first empty slot of a walk what it was. -/
theorem FirstEmpty.put_of_ne (hfirst : slots.FirstEmpty hash step)
    (hindex : index < slots.size)
    (hne : Ring.walk slots.size hash step ≠ index) (entry : Entry) :
    (slots.put index (.occupied entry)).FirstEmpty hash step where
  lt_size := by
    rw [size_put]
    exact hfirst.lt_size
  empty := by
    unfold visited
    rw [size_put, get_put_occupied_eq_empty_iff hindex]
    exact ⟨hne, hfirst.empty⟩
  passes := by
    intro earlier hlt
    unfold visited
    rw [size_put]
    exact get_put_ne_empty hindex (by simp) _ (hfirst.passes earlier hlt)

/-- A walk that finds its slot taken goes on from there. -/
theorem FirstEmpty.exists_later (hfirst : slots.FirstEmpty hash step)
    (hring : slots.Ringed) (hindex : index < slots.size)
    (hroom : 0 < (slots.put index (.occupied entry)).vacancies) :
    ∃ more, (slots.put index (.occupied entry)).FirstEmpty hash
      (step + more) := by
  have hring' := hring.put index (.occupied entry)
  obtain ⟨later, hlater⟩ := exists_firstEmpty hring'.binary
    (exists_empty_of_vacancies hroom) hash
  have hle : step ≤ later := by
    by_contra hlt
    have hpass := hfirst.passes later (by omega)
    have hempty := hlater.empty
    unfold visited at hpass hempty
    rw [size_put, get_put_occupied_eq_empty_iff hindex] at hempty
    exact hpass hempty.2
  exact ⟨later - step, by rwa [Nat.add_sub_cancel' hle]⟩

/-- From a slot where two walks meet, neither has the longer way on. -/
theorem FirstEmpty.more_le {leftHash rightHash : UInt32}
    {leftStep rightStep leftMore rightMore : Nat} (hring : slots.Ringed)
    (hindex : index < slots.size)
    (hmeet : Ring.walk slots.size leftHash leftStep =
      Ring.walk slots.size rightHash rightStep)
    (hleft : (slots.put index (.occupied first)).FirstEmpty leftHash
      (leftStep + leftMore))
    (hright : (slots.put index (.occupied second)).FirstEmpty rightHash
      (rightStep + rightMore)) : leftMore ≤ rightMore := by
  by_contra hlt
  have hpass := hleft.passes (leftStep + rightMore) (by omega)
  have hempty := hright.empty
  unfold visited at hpass hempty
  rw [size_put, get_put_occupied_eq_empty_iff hindex] at hempty
  rw [size_put, ne_eq, get_put_occupied_eq_empty_iff hindex,
    Ring.walk_add_eq hring.binary hmeet] at hpass
  exact hpass hempty

theorem settleAll_pair (hring : slots.Ringed) {next : Nat}
    (hfirst : slots.FirstEmpty first.hash step)
    (hsecond :
      (slots.put (Ring.walk slots.size first.hash step)
        (.occupied first)).FirstEmpty second.hash next) :
    ∃ settled, slots.settleAll [first, second] = .ok settled ∧
      settled.marks =
        (slots.marks.set (Ring.walk slots.size first.hash step) 'o').set
          (Ring.walk slots.size second.hash next) 'o' ∧
      settled.spread = next + (step + slots.spread) := by
  have hring' := hring.put (Ring.walk slots.size first.hash step)
    (.occupied first)
  have hspread := spread_put_first hring'.binary hring'.word hsecond
  rw [spread_put_first hring.binary hring.word hfirst] at hspread
  refine ⟨_, ?_, ?_, hspread⟩
  · rw [settleAll_cons (settle_of_firstEmpty hring.binary hfirst),
      settleAll_cons (settle_of_firstEmpty hring'.binary hsecond)]
    rfl
  · rw [marks_put, marks_put, size_put]
    rfl

/-- Entries that find room in different slots are not in each other's
way. -/
theorem settleAll_swap_apart (hring : slots.Ringed) {other : Nat}
    (hfirst : slots.FirstEmpty first.hash step)
    (hsecond : slots.FirstEmpty second.hash other)
    (hne : Ring.walk slots.size first.hash step ≠
      Ring.walk slots.size second.hash other) :
    ∃ settled turned, slots.settleAll [first, second] = .ok settled ∧
      slots.settleAll [second, first] = .ok turned ∧
      settled.Alike turned := by
  have hindex := Ring.walk_lt hring.binary first.hash step
  have hother := Ring.walk_lt hring.binary second.hash other
  obtain ⟨settled, hsettled, hmarks, hspread⟩ :=
    settleAll_pair hring hfirst (hsecond.put_of_ne hindex hne.symm first)
  obtain ⟨turned, hturned, hmarks', hspread'⟩ :=
    settleAll_pair hring hsecond (hfirst.put_of_ne hother hne second)
  refine ⟨settled, turned, hsettled, hturned, ?_⟩
  constructor
  · rw [hmarks, hmarks', List.set_comm _ _ hne]
  · rw [hspread, hspread']
    omega

/-- Of entries that find room in one slot, the second one goes on by as many
steps as the first one would have gone on. -/
theorem settleAll_swap_meet (hring : slots.Ringed) {other : Nat}
    (hfirst : slots.FirstEmpty first.hash step)
    (hsecond : slots.FirstEmpty second.hash other)
    (hmeet : Ring.walk slots.size first.hash step =
      Ring.walk slots.size second.hash other)
    (hroom : 2 ≤ slots.vacancies) :
    ∃ settled turned, slots.settleAll [first, second] = .ok settled ∧
      slots.settleAll [second, first] = .ok turned ∧
      settled.Alike turned := by
  have hindex := Ring.walk_lt hring.binary first.hash step
  have hopen : ∀ entry, 0 < (slots.put
      (Ring.walk slots.size first.hash step) (.occupied entry)).vacancies := by
    intro entry
    have hleft := vacancies_put hindex hfirst.empty entry
    omega
  obtain ⟨more, hsecondLater⟩ :=
    hsecond.exists_later hring hindex (hopen first)
  obtain ⟨same, hfirstLater⟩ :=
    hfirst.exists_later hring hindex (hopen second)
  have hsame : more = same :=
    Nat.le_antisymm
      (hsecondLater.more_le hring hindex hmeet.symm hfirstLater)
      (hfirstLater.more_le hring hindex hmeet hsecondLater)
  subst hsame
  obtain ⟨settled, hsettled, hmarks, hspread⟩ :=
    settleAll_pair hring hfirst hsecondLater
  rw [hmeet] at hfirstLater
  obtain ⟨turned, hturned, hmarks', hspread'⟩ :=
    settleAll_pair hring hsecond hfirstLater
  refine ⟨settled, turned, hsettled, hturned, ?_⟩
  constructor
  · rw [hmarks, hmarks', hmeet, Ring.walk_add_eq hring.binary hmeet]
  · rw [hspread, hspread']
    omega

theorem settleAll_swap (hring : slots.Ringed)
    (hroom : 2 ≤ slots.vacancies) (first second : Entry) :
    ∃ settled turned, slots.settleAll [first, second] = .ok settled ∧
      slots.settleAll [second, first] = .ok turned ∧
      settled.Alike turned := by
  have hempty : ∃ index < slots.size, slots.get index = .empty :=
    exists_empty_of_vacancies (by omega)
  obtain ⟨step, hfirst⟩ :=
    exists_firstEmpty hring.binary hempty first.hash
  obtain ⟨other, hsecond⟩ :=
    exists_firstEmpty hring.binary hempty second.hash
  by_cases hmeet : Ring.walk slots.size first.hash step =
      Ring.walk slots.size second.hash other
  · exact settleAll_swap_meet hring hfirst hsecond hmeet hroom
  · exact settleAll_swap_apart hring hfirst hsecond hmeet

/-! ## Any order -/

theorem settleAll_append {middle : Slots} {entries : List Entry}
    (hsettle : slots.settleAll entries = .ok middle)
    (later : List Entry) :
    slots.settleAll (entries ++ later) = middle.settleAll later := by
  unfold settleAll at hsettle ⊢
  rw [List.foldlM_append, hsettle]
  rfl

theorem settleAll_perm {entries others : List Entry}
    (hperm : entries.Perm others) (halike : left.Alike right)
    (hring : left.Ringed) (hroom : entries.length ≤ left.vacancies) :
    ∃ settled other, left.settleAll entries = .ok settled ∧
      right.settleAll others = .ok other ∧ settled.Alike other := by
  induction hperm generalizing left right with
  | nil => exact ⟨left, right, rfl, rfl, halike⟩
  | @cons entry entries others hperm ih =>
      rw [List.length_cons] at hroom
      obtain ⟨next, nextOther, hnext, hnextOther, hnextAlike, hnextRing,
        hleft⟩ := halike.settle hring (by omega) entry
      obtain ⟨settled, other, hsettled, hother, hsame⟩ :=
        ih hnextAlike hnextRing (by omega)
      refine ⟨settled, other, ?_, ?_, hsame⟩
      · rw [settleAll_cons hnext, hsettled]
      · rw [settleAll_cons hnextOther, hother]
  | swap first second later =>
      simp only [List.length_cons] at hroom
      have hpair : [first, second].length ≤ left.vacancies := by
        simp only [List.length_cons, List.length_nil]
        omega
      -- exchange the two in the left array, then cross over to the right one
      obtain ⟨front, turned, hfront, hturned, hfrontTurned⟩ :=
        settleAll_swap hring (by omega) second first
      obtain ⟨again, across, hagain, hacross, hagainAcross, hagainRing,
        hleft⟩ := halike.settleAll hring hpair
      rw [hturned, Except.ok.injEq] at hagain
      subst hagain
      have hsame : turned.Alike front := hfrontTurned.symm
      have hlater : later.length ≤ front.vacancies := by
        rw [← hsame.vacancies_eq]
        simp only [List.length_cons, List.length_nil] at hleft
        omega
      obtain ⟨settled, other, hsettled, hother, hlast, -⟩ :=
        (hfrontTurned.trans hagainAcross).settleAll
          (hsame.ringed hagainRing) hlater
      refine ⟨settled, other, ?_, ?_, hlast⟩
      · exact (settleAll_append hfront later).trans hsettled
      · exact (settleAll_append hacross later).trans hother
  | trans hfirst hsecond ihfirst ihsecond =>
      obtain ⟨settled, middle, hsettled, hmiddle, hsame⟩ :=
        ihfirst (.refl left) hring hroom
      obtain ⟨again, other, hagain, hother, hsame'⟩ :=
        ihsecond halike hring (hfirst.length_eq ▸ hroom)
      rw [hmiddle, Except.ok.injEq] at hagain
      subst hagain
      exact ⟨settled, other, hsettled, hother, hsame.trans hsame'⟩

end LinearProbing.Slots
