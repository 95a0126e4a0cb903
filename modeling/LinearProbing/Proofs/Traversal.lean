import LinearProbing.Proofs.WellFormed
import LinearProbing.Table.Cursor
import LinearProbing.Table.Drain
import Mathlib.Logic.Function.Iterate

/-!
# Cursors and drains

Both ways through a table yield its entries in slot order.  A cursor leaves
the table alone.  A drain buries each entry it yields, so after some steps
its table holds exactly the entries that are still to come, and it is well
formed at every point (`Drain.Onward.take`).
-/

namespace LinearProbing

namespace Cursor

/-- The entries that a cursor has not passed. -/
def ahead (cursor : Cursor) : List Entry :=
  cursor.rest.filterMap Slot.entry?

theorem seek_eq_none {slots : List Slot} (hseek : seek slots = none) :
    slots.filterMap Slot.entry? = [] := by
  induction slots with
  | nil => rfl
  | cons slot slots ih =>
      cases slot with
      | occupied entry => simp [seek] at hseek
      | empty => exact ih hseek
      | tombstone => exact ih hseek

theorem seek_eq_some {slots rest : List Slot} {entry : Entry}
    (hseek : seek slots = some (entry, rest)) :
    slots.filterMap Slot.entry? = entry :: rest.filterMap Slot.entry? := by
  induction slots with
  | nil => simp [seek] at hseek
  | cons slot slots ih =>
      cases slot with
      | occupied found =>
          simp only [seek, Option.some.injEq, Prod.mk.injEq] at hseek
          rcases hseek with ⟨rfl, rfl⟩
          rfl
      | empty => exact ih hseek
      | tombstone => exact ih hseek

theorem next_of_nil {cursor : Cursor}
    (hcount : cursor.remaining = cursor.ahead.length)
    (hnil : cursor.ahead = []) : cursor.next = (none, cursor) := by
  rw [hnil, List.length_nil] at hcount
  rw [next, if_pos hcount]

theorem next_of_cons {cursor : Cursor}
    (hcount : cursor.remaining = cursor.ahead.length) {entry : Entry}
    {later : List Entry} (hcons : cursor.ahead = entry :: later) :
    ∃ last : Cursor, cursor.next = (some entry, last) ∧
      last.ahead = later ∧ last.remaining = later.length := by
  rw [hcons, List.length_cons] at hcount
  have hpositive : cursor.remaining ≠ 0 := by omega
  rw [next, if_neg hpositive]
  cases hseek : seek cursor.rest with
  | none =>
      have hnil := seek_eq_none hseek
      unfold ahead at hcons
      rw [hnil] at hcons
      simp at hcons
  | some found =>
      rcases found with ⟨first, rest⟩
      have hsplit := seek_eq_some hseek
      unfold ahead at hcons
      rw [hsplit, List.cons.injEq] at hcons
      rcases hcons with ⟨rfl, hlater⟩
      refine ⟨⟨rest, cursor.remaining - 1⟩, rfl, hlater, ?_⟩
      dsimp only
      omega

theorem take_eq {cursor : Cursor}
    (hcount : cursor.remaining = cursor.ahead.length) (steps : Nat) :
    (cursor.take steps).1 = cursor.ahead.take steps := by
  induction steps generalizing cursor with
  | zero => rfl
  | succ steps ih =>
      rw [take]
      cases hahead : cursor.ahead with
      | nil =>
          rw [next_of_nil hcount hahead]
          rfl
      | cons entry later =>
          obtain ⟨last, hnext, hlast, hremaining⟩ :=
            next_of_cons hcount hahead
          have hrest := ih (hremaining.trans (congrArg _ hlast.symm))
          simp only [hnext, hrest, hlast, List.take_succ_cons]

end Cursor

theorem Table.Consistent.take_cursor {table : Table}
    (hgood : table.Consistent) (steps : Nat) :
    (table.cursor.take steps).1 = table.slots.entries.take steps :=
  Cursor.take_eq hgood.length_entries.symm steps

theorem Table.Consistent.entries_eq {table : Table}
    (hgood : table.Consistent) : table.entries = table.slots.entries := by
  have htake := hgood.take_cursor table.count
  rw [← hgood.length_entries, List.take_length] at htake
  unfold Table.entries Cursor.toList
  rw [← htake, hgood.length_entries]
  rfl

namespace Drain

theorem beyond_succ_of_content_nil {slots : Slots} {index : Nat}
    (hcontent : (slots.get index).content = []) :
    slots.beyond (index + 1) = slots.beyond index := by
  by_cases hindex : index < slots.size
  · rw [Slots.beyond_eq hindex, hcontent, List.nil_append]
  · have hover : slots.size ≤ index := Nat.le_of_not_gt hindex
    rw [Slots.beyond_of_size_le hover, Slots.beyond_of_size_le (by omega)]

theorem seek_succ_of_content_nil {slots : Slots} {index : Nat}
    (hcontent : (slots.get index).content = []) (left : Nat) :
    seek slots index (left + 1) = seek slots (index + 1) left := by
  rw [seek]
  cases hslot : slots.get index with
  | occupied entry => simp [hslot, Slot.content] at hcontent
  | _ => rfl

theorem seek_eq_none {slots : Slots} {index left : Nat}
    (hleft : slots.size ≤ index + left)
    (hseek : seek slots index left = none) : slots.beyond index = [] := by
  induction left generalizing index with
  | zero => exact Slots.beyond_of_size_le hleft
  | succ left ih =>
      by_cases hcontent : (slots.get index).content = []
      · rw [seek_succ_of_content_nil hcontent] at hseek
        rw [← beyond_succ_of_content_nil hcontent]
        exact ih (by omega) hseek
      · obtain ⟨entry, hslot⟩ := Slot.content_ne_nil_iff.mp hcontent
        simp [seek, hslot] at hseek

theorem seek_eq_some {slots : Slots} {index left position : Nat}
    {entry : Entry} (hseek : seek slots index left = some (position, entry)) :
    slots.get position = .occupied entry ∧
      slots.beyond index = slots.beyond position := by
  induction left generalizing index with
  | zero => simp [seek] at hseek
  | succ left ih =>
      by_cases hcontent : (slots.get index).content = []
      · rw [seek_succ_of_content_nil hcontent] at hseek
        rw [← beyond_succ_of_content_nil hcontent]
        exact ih hseek
      · obtain ⟨found, hslot⟩ := Slot.content_ne_nil_iff.mp hcontent
        simp only [seek, hslot, Option.some.injEq, Prod.mk.injEq] at hseek
        rcases hseek with ⟨rfl, rfl⟩
        exact ⟨hslot, rfl⟩

/-- A drain on its way: what its table still holds lies ahead of it. -/
structure Onward (drain : Drain) : Prop where
  good : drain.table.WellFormed
  passed : drain.table.slots.before drain.index = []

variable {drain : Drain}

theorem Onward.entries_eq (honward : drain.Onward) :
    drain.table.slots.entries = drain.table.slots.beyond drain.index := by
  rw [← Slots.before_append_beyond _ drain.index, honward.passed,
    List.nil_append]

theorem next_of_nil
    (hnil : drain.table.slots.entries = []) :
    drain.next = (none, ⟨drain.table, drain.table.capacity⟩) := by
  rw [next]
  cases hseek : seek drain.table.slots drain.index
      (drain.table.capacity - drain.index) with
  | none => rfl
  | some found =>
      rcases found with ⟨position, entry⟩
      have hslot := (seek_eq_some hseek).1
      have hmem := Slots.mem_entries.mpr ⟨position, hslot⟩
      rw [hnil] at hmem
      simp at hmem

/-- The drain behind an entry that has nothing before it. -/
theorem onward_bury {table : Table} (hgood : table.WellFormed)
    {position : Nat} {entry : Entry}
    (hslot : table.slots.get position = .occupied entry)
    (hbefore : table.slots.before position = []) :
    Onward ⟨table.bury position, position + 1⟩ ∧
      (table.bury position).slots.entries =
        table.slots.beyond (position + 1) := by
  have hposition := Slots.lt_size_of_occupied hslot
  have hburied :
      (table.slots.put position .tombstone).before position = [] := by
    rw [Slots.before_put, hbefore]
  have hsize : position < (table.slots.put position .tombstone).size := by
    rwa [Slots.size_put]
  constructor
  · refine ⟨hgood.bury hslot, ?_⟩
    change (table.slots.put position .tombstone).before (position + 1) = []
    rw [Slots.before_succ hsize, hburied, Slots.get_put hposition,
      if_pos rfl]
    rfl
  · unfold Table.bury
    rw [Slots.entries_put hposition, hbefore]
    rfl

theorem Onward.next_of_cons (honward : drain.Onward) {entry : Entry}
    {later : List Entry}
    (hcons : drain.table.slots.entries = entry :: later) :
    ∃ position,
      drain.table.slots.get position = .occupied entry ∧
      drain.next =
        (some entry, ⟨drain.table.bury position, position + 1⟩) ∧
      Onward ⟨drain.table.bury position, position + 1⟩ ∧
      (drain.table.bury position).slots.entries = later := by
  rw [next]
  cases hseek : seek drain.table.slots drain.index
      (drain.table.capacity - drain.index) with
  | none =>
      have hnil : drain.table.slots.beyond drain.index = [] := by
        apply seek_eq_none _ hseek
        unfold Table.capacity
        omega
      rw [honward.entries_eq, hnil] at hcons
      simp at hcons
  | some found =>
      rcases found with ⟨position, first⟩
      obtain ⟨hslot, hahead⟩ := seek_eq_some hseek
      have hentries :
          drain.table.slots.entries =
            drain.table.slots.beyond position :=
        honward.entries_eq.trans hahead
      have hbefore : drain.table.slots.before position = [] := by
        have hsplit :=
          Slots.before_append_beyond drain.table.slots position
        rw [hentries] at hsplit
        simpa using hsplit
      rw [hentries, Slots.beyond_eq (Slots.lt_size_of_occupied hslot),
        hslot] at hcons
      simp only [Slot.content, List.singleton_append,
        List.cons.injEq] at hcons
      rcases hcons with ⟨rfl, hlater⟩
      obtain ⟨honward', hleft⟩ := onward_bury honward.good hslot hbefore
      exact ⟨position, hslot, rfl, honward', hleft.trans hlater⟩

theorem Onward.take (honward : drain.Onward) (steps : Nat) :
    (drain.take steps).1 = drain.table.slots.entries.take steps ∧
      (drain.take steps).2.table.slots.entries =
        drain.table.slots.entries.drop steps ∧
      (drain.take steps).2.table.WellFormed := by
  induction steps generalizing drain with
  | zero => exact ⟨rfl, rfl, honward.good⟩
  | succ steps ih =>
      rw [Drain.take]
      cases hentries : drain.table.slots.entries with
      | nil =>
          rw [next_of_nil hentries]
          exact ⟨rfl, hentries, honward.good⟩
      | cons entry later =>
          obtain ⟨position, -, hnext, honward', hlater⟩ :=
            honward.next_of_cons hentries
          obtain ⟨hyield, hleft, hgood⟩ := ih honward'
          simp only [hlater] at hyield hleft
          simp only [hnext, List.take_succ_cons, List.drop_succ_cons]
          exact ⟨by rw [hyield], hleft, hgood⟩

theorem iterate_next_of_nil (hnil : drain.table.slots.entries = [])
    (steps : Nat) :
    ((fun drain => drain.next.2)^[steps] drain).table = drain.table := by
  induction steps generalizing drain with
  | zero => rfl
  | succ steps ih =>
      rw [Function.iterate_succ_apply, next_of_nil hnil]
      exact ih hnil

/-- A drain that is asked on after its last entry changes nothing more, so it
does not matter that `take` stops there. -/
theorem Onward.iterate_next (honward : drain.Onward) (steps : Nat) :
    ((fun drain => drain.next.2)^[steps] drain).table =
      (drain.take steps).2.table := by
  induction steps generalizing drain with
  | zero => rfl
  | succ steps ih =>
      rw [Function.iterate_succ_apply, Drain.take]
      cases hentries : drain.table.slots.entries with
      | nil =>
          let last : Drain := ⟨drain.table, drain.table.capacity⟩
          have hlast : last.table.slots.entries = [] := hentries
          rw [next_of_nil hentries]
          exact iterate_next_of_nil hlast steps
      | cons entry later =>
          obtain ⟨position, -, hnext, honward', -⟩ :=
            honward.next_of_cons hentries
          rw [hnext]
          exact ih honward'

end Drain

theorem Table.WellFormed.drain_onward {table : Table}
    (hgood : table.WellFormed) : table.drain.Onward :=
  ⟨hgood, Slots.before_zero table.slots⟩

end LinearProbing
