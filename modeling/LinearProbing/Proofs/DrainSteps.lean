import LinearProbing.Proofs.Traversal

/-!
# What the steps of a drain leave

A step of a drain buries the entry that it yields and touches no other slot.
So the capacity and the number of slots in use are the same at every point of
a drain, and a slot has changed exactly if its entry was yielded
(`Onward.get_take`).

A caller may go on asking after the last entry.  `advance` is the drain after
a number of calls whatever they answered, and the answer to each call is the
entry at that place of the slot order, or none behind the last one
(`Onward.next_advance`).
-/

namespace LinearProbing.Drain

variable {drain : Drain}

theorem Onward.usage_take (honward : drain.Onward) (steps : Nat) :
    (drain.take steps).2.table.capacity = drain.table.capacity ∧
      (drain.take steps).2.table.used = drain.table.used := by
  induction steps generalizing drain with
  | zero => exact ⟨rfl, rfl⟩
  | succ steps ih =>
      rw [Drain.take]
      cases hentries : drain.table.slots.entries with
      | nil =>
          rw [next_of_nil hentries]
          exact ⟨rfl, rfl⟩
      | cons entry later =>
          obtain ⟨position, hslot, hnext, honward', -⟩ :=
            honward.next_of_cons hentries
          obtain ⟨hcapacity, hused⟩ := ih honward'
          have hburied := Table.used_bury (honward.good.count_pos hslot)
            position
          simp only [hnext]
          exact ⟨hcapacity.trans (Table.capacity_bury _ _),
            hused.trans hburied⟩

/-- A slot is the tombstone of an entry that was yielded, or what it was. -/
theorem Onward.get_take (honward : drain.Onward) (steps index : Nat) :
    (drain.take steps).2.table.slots.get index =
      if ∃ entry ∈ drain.table.slots.entries.take steps,
          drain.table.slots.get index = .occupied entry then
        .tombstone
      else
        drain.table.slots.get index := by
  induction steps generalizing drain with
  | zero => simp [Drain.take]
  | succ steps ih =>
      rw [Drain.take]
      cases hentries : drain.table.slots.entries with
      | nil =>
          rw [next_of_nil hentries]
          simp
      | cons entry later =>
          obtain ⟨position, hslot, hnext, honward', hlater⟩ :=
            honward.next_of_cons hentries
          have hposition := Slots.lt_size_of_occupied hslot
          have hburied : ∀ index,
              (drain.table.bury position).slots.get index =
                if index = position then .tombstone
                else drain.table.slots.get index :=
            Slots.get_put hposition .tombstone
          have hrest := ih honward'
          simp only [hlater, hburied] at hrest
          simp only [hnext, hrest, List.take_succ_cons, List.mem_cons,
            exists_eq_or_imp]
          by_cases heq : index = position
          · simp [heq, hslot]
          · -- the entry lies in its own slot only, since keys are distinct
            have hother : drain.table.slots.get index ≠ .occupied entry :=
              fun hsame => heq (honward.good.sound.distinct index position
                entry entry hsame hslot rfl)
            simp [heq, hother]

/-! ## Calls that go on after the end -/

/-- The drain after some calls of `next`, whatever they answered. -/
def advance (drain : Drain) (steps : Nat) : Drain :=
  (fun drain => drain.next.2)^[steps] drain

theorem Onward.table_advance (honward : drain.Onward) (steps : Nat) :
    (drain.advance steps).table = (drain.take steps).2.table :=
  honward.iterate_next steps

theorem Onward.next (honward : drain.Onward) :
    drain.next.1 = drain.table.slots.entries.head? ∧
      drain.next.2.Onward ∧
      drain.next.2.table.slots.entries = drain.table.slots.entries.tail := by
  cases hentries : drain.table.slots.entries with
  | nil =>
      have hbefore :
          drain.table.slots.before drain.table.capacity = [] := by
        have hsplit := Slots.before_append_beyond drain.table.slots
          drain.table.capacity
        rw [hentries, List.append_eq_nil_iff] at hsplit
        exact hsplit.1
      rw [next_of_nil hentries]
      exact ⟨rfl, ⟨honward.good, hbefore⟩, hentries⟩
  | cons entry later =>
      obtain ⟨position, -, hnext, honward', hlater⟩ :=
        honward.next_of_cons hentries
      rw [hnext]
      exact ⟨rfl, honward', hlater⟩

theorem Onward.advance (honward : drain.Onward) (steps : Nat) :
    (drain.advance steps).Onward ∧
      (drain.advance steps).table.slots.entries =
        drain.table.slots.entries.drop steps := by
  induction steps generalizing drain with
  | zero => exact ⟨honward, rfl⟩
  | succ steps ih =>
      obtain ⟨-, honward', htail⟩ := honward.next
      have hrest := ih honward'
      rw [htail, List.drop_tail] at hrest
      exact hrest

theorem Onward.next_advance (honward : drain.Onward) (step : Nat) :
    (drain.advance step).next.1 = drain.table.slots.entries[step]? := by
  obtain ⟨honward', hleft⟩ := honward.advance step
  rw [honward'.next.1, hleft, List.head?_drop]

end LinearProbing.Drain
