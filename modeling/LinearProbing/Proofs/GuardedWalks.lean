import LinearProbing.Proofs.Guarded
import LinearProbing.Proofs.Traversal

/-!
# Guarded walks over a table

Cursors and drains with their checks.  A cursor goes over a list and counts
down.  A drain goes by index in a loop without a bound; it writes a tombstone
before it knows what the slot held, and puts back what is no entry.
-/

namespace LinearProbing.Guarded

/-! ## Cursors -/

def nextEntry (cursor : Cursor) : Guarded (Option Entry × Cursor) :=
  if cursor.remaining = 0 then
    pure (none, cursor)
  else
    match Cursor.seek cursor.rest with
    | none => pure (none, ⟨[], cursor.remaining⟩)
    | some (entry, rest) => do
        let remaining ← sub cursor.remaining 1
        pure (some entry, ⟨rest, remaining⟩)

def list : Nat → Cursor → Guarded (List Entry × Cursor)
  | 0, cursor => pure ([], cursor)
  | steps + 1, cursor => do
      match ← nextEntry cursor with
      | (none, last) => pure ([], last)
      | (some entry, later) => do
          let (entries, last) ← list steps later
          pure (entry :: entries, last)

theorem nextEntry_eq (cursor : Cursor) :
    nextEntry cursor = pure cursor.next := by
  unfold nextEntry Cursor.next
  by_cases hspent : cursor.remaining = 0
  · rw [if_pos hspent, if_pos hspent]
  · rw [if_neg hspent, if_neg hspent]
    cases Cursor.seek cursor.rest with
    | none => rfl
    | some found =>
        simp only [sub_eq (Nat.one_le_iff_ne_zero.mpr hspent), pure_bind]

theorem list_eq (steps : Nat) (cursor : Cursor) :
    list steps cursor = pure (cursor.take steps) := by
  induction steps generalizing cursor with
  | zero => rfl
  | succ steps ih =>
      rw [list, nextEntry_eq, pure_bind, Cursor.take]
      rcases cursor.next with ⟨_ | entry, later⟩
      · rfl
      · simp only [ih, pure_bind]

/-! ## Drains -/

def drainTurn (current : Drain) :
    Guarded (Turn Drain (Option Entry × Drain)) :=
  let table := current.table
  let index := current.index
  if index < table.capacity then do
    let slot ← readSlot table.slots index
    let buried ← writeSlot table.slots index .tombstone
    let next ← add index 1
    match slot with
    | .occupied entry => do
        let count ← sub table.count 1
        let tombstones ← add table.tombstones 1
        pure (.done
          (some entry,
            ⟨{ table with
                slots := buried
                count := count
                tombstones := tombstones },
              next⟩))
    | .empty | .tombstone => do
        let restored ← writeSlot buried index slot
        pure (.again ⟨{ table with slots := restored }, next⟩)
  else
    pure (.done (none, current))

noncomputable def drainNext (current : Drain) :
    Guarded (Option Entry × Drain) :=
  loop drainTurn current

noncomputable def drain : Nat → Drain → Guarded (List Entry × Drain)
  | 0, drain => pure ([], drain)
  | steps + 1, current => do
      match ← drainNext current with
      | (none, last) => pure ([], last)
      | (some entry, later) => do
          let (entries, last) ← drain steps later
          pure (entry :: entries, last)

variable {table : Table} {index : Nat}

theorem drainTurn_of_content_nil (hgood : table.WellFormed)
    (hindex : index < table.capacity)
    (hcontent : (table.slots.get index).content = []) :
    drainTurn ⟨table, index⟩ = pure (.again ⟨table, index + 1⟩) := by
  have hslots : index < table.slots.size := hindex
  have hsize : index < (table.slots.put index .tombstone).size := by
    rwa [Slots.size_put]
  have hword : index + 1 < UInt64.size := by
    have hcapacity := hgood.lt_wordSize
    omega
  have hback : (table.slots.put index .tombstone).put index
      (table.slots.get index) = table.slots := by
    rw [Slots.put_put, Slots.put_self rfl]
  unfold drainTurn
  dsimp only
  rw [if_pos hindex, readSlot_eq hslots, pure_bind,
    writeSlot_eq hslots, pure_bind, add_eq hword, pure_bind]
  cases hslot : table.slots.get index with
  | occupied entry => simp [hslot, Slot.content] at hcontent
  | empty =>
      rw [hslot] at hback
      simp only [writeSlot_eq hsize, pure_bind, hback]
  | tombstone =>
      rw [hslot] at hback
      simp only [writeSlot_eq hsize, pure_bind, hback]

theorem drainTurn_of_occupied (hgood : table.WellFormed) {entry : Entry}
    (hslot : table.slots.get index = .occupied entry) :
    drainTurn ⟨table, index⟩ =
      pure (.done (some entry, ⟨table.bury index, index + 1⟩)) := by
  have hindex := Slots.lt_size_of_occupied hslot
  have hcapacity := hgood.lt_wordSize
  have hcount := hgood.count_pos hslot
  have hword : index + 1 < UInt64.size :=
    (Nat.succ_le_of_lt hindex).trans_lt hcapacity
  have hgraves : table.tombstones + 1 < UInt64.size := by
    have hused := hgood.used_lt
    unfold Table.used at hused
    omega
  have hgo : index < table.capacity := hindex
  unfold drainTurn
  dsimp only
  rw [if_pos hgo, readSlot_eq hindex, pure_bind,
    writeSlot_eq hindex, pure_bind, add_eq hword, pure_bind, hslot]
  simp only [sub_eq hcount, add_eq hgraves, pure_bind]
  rfl

theorem drainNext_eq (hgood : table.WellFormed) {left : Nat}
    (hleft : index + left = table.capacity) :
    drainNext ⟨table, index⟩ =
      pure
        (match Drain.seek table.slots index left with
        | none => (none, ⟨table, table.capacity⟩)
        | some (position, entry) =>
            (some entry, ⟨table.bury position, position + 1⟩)) := by
  induction left generalizing index with
  | zero =>
      have hend : index = table.capacity := hleft
      have hturn : drainTurn ⟨table, index⟩ =
          pure (.done (none, ⟨table, index⟩)) := if_neg hend.not_lt
      rw [drainNext, loop_of_done hturn, Drain.seek, hend]
  | succ left ih =>
      by_cases hcontent : (table.slots.get index).content = []
      · have hturn := drainTurn_of_content_nil hgood (by omega) hcontent
        rw [drainNext, loop_of_again hturn,
          Drain.seek_succ_of_content_nil hcontent]
        exact ih (by omega)
      · obtain ⟨entry, hslot⟩ := Slot.content_ne_nil_iff.mp hcontent
        rw [drainNext, loop_of_done (drainTurn_of_occupied hgood hslot),
          Drain.seek, hslot]

theorem drain_eq {current : Drain} (hgood : current.table.WellFormed)
    (hindex : current.index ≤ current.table.capacity) (steps : Nat) :
    drain steps current = pure (current.take steps) := by
  induction steps generalizing current with
  | zero => rfl
  | succ steps ih =>
      have hnext := drainNext_eq hgood (Nat.add_sub_cancel' hindex)
      rw [drain, hnext, pure_bind, Drain.take, Drain.next]
      cases hseek : Drain.seek current.table.slots current.index
          (current.table.capacity - current.index) with
      | none => rfl
      | some found =>
          rcases found with ⟨position, entry⟩
          have hslot := (Drain.seek_eq_some hseek).1
          let later : Drain := ⟨current.table.bury position, position + 1⟩
          have hposition : later.index ≤ later.table.capacity := by
            rw [Table.capacity_bury]
            exact Slots.lt_size_of_occupied hslot
          have hrest := @ih later (hgood.bury hslot) hposition
          simp only [later] at hrest
          simp only [hrest, pure_bind]

end LinearProbing.Guarded
