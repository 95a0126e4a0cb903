import LinearProbing.Proofs.Contents
import LinearProbing.Proofs.DrainSteps
import LinearProbing.Proofs.Layout
import LinearProbing.Proofs.Session

/-!
# Walks over the entries

A cursor stops by a counter and a drain by the end of the slot array.  The
two yield the same entries as long as the counter is right, that is if it
counts the entries ahead of the cursor, and a step of the cursor keeps it
right (`Cursor.Exact.next`).  The counter of a reachable table is right, so
both ways through it yield its entries in the order of their slots and then
none for ever, and the hint on either way says at every point how many calls
will still yield an entry.
-/

namespace LinearProbing

namespace Slots

variable {slots : Slots} {index : Nat} {entry : Entry}

/-- All entries with their slots, in the order of the slots. -/
structure InOrder (slots : Slots) (placements : List (Nat × Entry)) :
    Prop where
  ascending : placements.Pairwise fun first second => first.1 < second.1
  mem_iff :
    ∀ index entry, (index, entry) ∈ placements ↔
      slots.get index = .occupied entry

theorem getElem?_toList_eq_occupied :
    slots.toList[index]? = some (.occupied entry) ↔
      slots.get index = .occupied entry := by
  constructor
  · intro hslot
    obtain ⟨hindex, hslot⟩ := List.getElem?_eq_some_iff.mp hslot
    rwa [getElem_toList] at hslot
  · intro hslot
    have hindex : index < slots.toList.length := by
      rw [length_toList]
      exact lt_size_of_occupied hslot
    rw [List.getElem?_eq_getElem hindex, getElem_toList, hslot]

theorem mem_placements :
    (index, entry) ∈ slots.placements ↔
      slots.get index = .occupied entry := by
  rw [placements, List.mem_filterMap, ← getElem?_toList_eq_occupied]
  constructor
  · rintro ⟨⟨slot, position⟩, hmem, hplaced⟩
    rw [List.mk_mem_zipIdx_iff_getElem?] at hmem
    simp only [Option.map_eq_some_iff, Slot.entry?_eq_some_iff,
      Prod.mk.injEq] at hplaced
    obtain ⟨found, rfl, rfl, rfl⟩ := hplaced
    exact hmem
  · intro hslot
    exact ⟨(.occupied entry, index),
      List.mk_mem_zipIdx_iff_getElem?.mpr hslot, rfl⟩

theorem inOrder_placements (slots : Slots) :
    slots.InOrder slots.placements where
  ascending := by
    have hnumbers : (slots.toList.zipIdx.map Prod.snd).Pairwise (· < ·) := by
      rw [List.zipIdx_map_snd]
      exact List.pairwise_lt_range'
    rw [List.pairwise_map] at hnumbers
    rw [placements, List.pairwise_filterMap]
    apply hnumbers.imp
    intro first second hlt left hleft right hright
    simp only [Option.map_eq_some_iff] at hleft hright
    obtain ⟨entry, -, rfl⟩ := hleft
    obtain ⟨other, -, rfl⟩ := hright
    exact hlt
  mem_iff _ _ := mem_placements

theorem map_snd_placements (slots : Slots) :
    slots.placements.map Prod.snd = slots.entries :=
  map_snd_placed 0 slots.toList

end Slots

/-! ## Cursors -/

namespace Cursor

variable {cursor : Cursor}

/-- The cursor after some calls of `next`, whatever they answered. -/
def advance (cursor : Cursor) (steps : Nat) : Cursor :=
  (fun cursor => cursor.next.2)^[steps] cursor

/-- The counter is the number of the entries ahead. -/
def Exact (cursor : Cursor) : Prop :=
  cursor.remaining = cursor.ahead.length

theorem Exact.next (hexact : cursor.Exact) :
    cursor.next.1 = cursor.ahead.head? ∧ cursor.next.2.Exact ∧
      cursor.next.2.ahead = cursor.ahead.tail := by
  cases hahead : cursor.ahead with
  | nil =>
      rw [next_of_nil hexact hahead]
      exact ⟨rfl, hexact, hahead⟩
  | cons entry later =>
      obtain ⟨last, hnext, hlast, hremaining⟩ := next_of_cons hexact hahead
      subst hlast
      rw [hnext]
      exact ⟨rfl, hremaining, rfl⟩

theorem Exact.advance (hexact : cursor.Exact) (steps : Nat) :
    (cursor.advance steps).Exact ∧
      (cursor.advance steps).ahead = cursor.ahead.drop steps := by
  induction steps generalizing cursor with
  | zero => exact ⟨hexact, rfl⟩
  | succ steps ih =>
      obtain ⟨-, hexact', htail⟩ := hexact.next
      have hrest := ih hexact'
      rw [htail, List.drop_tail] at hrest
      exact hrest

theorem Exact.next_advance (hexact : cursor.Exact) (step : Nat) :
    (cursor.advance step).next.1 = cursor.ahead[step]? := by
  obtain ⟨hexact', hahead⟩ := hexact.advance step
  rw [hexact'.next.1, hahead, List.head?_drop]

theorem Exact.remaining_advance (hexact : cursor.Exact) (steps : Nat) :
    (cursor.advance steps).remaining = cursor.ahead.length - steps := by
  obtain ⟨hexact', hahead⟩ := hexact.advance steps
  rw [hexact', hahead, List.length_drop]

end Cursor

namespace Table

variable {table : Table}

theorem Consistent.exact_cursor (hgood : table.Consistent) :
    table.cursor.Exact :=
  hgood.length_entries.symm

theorem Consistent.next_advance_cursor (hgood : table.Consistent)
    (steps : Nat) :
    (table.cursor.advance steps).next.1 = table.slots.entries[steps]? :=
  hgood.exact_cursor.next_advance steps

theorem Consistent.remaining_cursor (hgood : table.Consistent)
    (steps : Nat) :
    (table.cursor.advance steps).remaining = table.count - steps := by
  rw [hgood.exact_cursor.remaining_advance, ← hgood.length_entries]
  rfl

theorem WellFormed.remaining_drain (hgood : table.WellFormed)
    (steps : Nat) :
    (table.drain.advance steps).remaining = table.count - steps := by
  obtain ⟨honward, hleft⟩ := hgood.drain_onward.advance steps
  have hcount := honward.good.length_entries
  rw [hleft, List.length_drop] at hcount
  rw [Drain.remaining, ← hcount, ← hgood.length_entries]
  rfl

theorem Consistent.lookup_eq_some_iff (hgood : table.Consistent)
    {key value : Bytes} :
    table.contents.lookup key = some value ↔
      ∃ index entry, table.slots.get index = .occupied entry ∧
        entry.key = key ∧ entry.valueBytes = value := by
  constructor
  · intro hlookup
    have hmem := Finmap.mem_of_lookup_eq_some hlookup
    obtain ⟨index, entry, hslot, rfl⟩ :=
      Slots.mem_keys.mp (mem_contents.mp hmem)
    rw [hgood.lookup_contents hslot, Option.some.injEq] at hlookup
    exact ⟨index, entry, hslot, rfl, hlookup⟩
  · rintro ⟨index, entry, hslot, rfl, rfl⟩
    exact hgood.lookup_contents hslot

/-! ## Both walks at every point -/

/-- What an iteration over a table and a drain of it answer to each call. -/
structure Enumerates (table : Table) (placements : List (Nat × Entry)) :
    Prop where
  inOrder : table.slots.InOrder placements
  distinct : (placements.map fun placement => placement.2.key).Nodup
  represented :
    ∀ key value, table.contents.lookup key = some value ↔
      ∃ index entry, (index, entry) ∈ placements ∧ entry.key = key ∧
        entry.valueBytes = value
  length_eq : placements.length = table.count
  yields :
    ∀ steps, (table.cursor.advance steps).next.1 =
      placements[steps]?.map Prod.snd
  hints :
    ∀ steps,
      let left := table.count - min steps table.count
      (table.cursor.advance steps).sizeHint = (left, left)
  to_come :
    ∀ steps later,
      (table.cursor.advance (steps + later)).next.1.isSome ↔
        later < (table.cursor.advance steps).sizeHint.1
  drain_yields :
    ∀ steps, (table.drain.advance steps).next.1 =
      (table.cursor.advance steps).next.1
  drain_hints :
    ∀ steps, (table.drain.advance steps).sizeHint =
      (table.cursor.advance steps).sizeHint

theorem Reachable.enumerates (hreach : Reachable table) :
    table.Enumerates table.slots.placements := by
  have hgood := hreach.wellFormed
  have hentries := Slots.map_snd_placements table.slots
  constructor
  · exact Slots.inOrder_placements table.slots
  · have hkeys := hgood.sound.nodup_keys
    rwa [← hentries, List.map_map] at hkeys
  · intro key value
    simp only [Slots.mem_placements]
    exact hgood.lookup_eq_some_iff
  · rw [Slots.length_placements, hgood.length_entries]
  · intro steps
    rw [hgood.next_advance_cursor, ← hentries, List.getElem?_map]
  · intro steps
    have hleft : table.count - steps =
        table.count - min steps table.count := by omega
    simp only [Cursor.sizeHint, hgood.remaining_cursor, hleft]
  · intro steps later
    rw [hgood.next_advance_cursor, Cursor.sizeHint, hgood.remaining_cursor,
      ← hgood.length_entries, Option.isSome_iff_ne_none, ne_eq,
      List.getElem?_eq_none_iff]
    omega
  · intro steps
    rw [hgood.next_advance_cursor]
    exact hgood.drain_onward.next_advance steps
  · intro steps
    rw [Drain.sizeHint, Cursor.sizeHint, hgood.remaining_cursor,
      hgood.remaining_drain]

/-- Seven keys make the table grow.  Then two of them are removed and a drain
is abandoned after another one. -/
def perforated : List Request :=
  ([0, 8, 16, 1, 2, 3, 4].map fun byte =>
      ⟨16, .insert (.plain [byte]) (.plain [byte])⟩) ++
    [⟨16, .erase (.plain [8])⟩, ⟨16, .erase (.plain [3])⟩,
      ⟨16, .drain 1 true⟩]

theorem enumerates_perforated :
    let table := run ⟨Slots.blank 8, 0, 0, 1, 1⟩ perforated
    let answer (steps : Nat) : Option Bytes :=
      (table.cursor.advance steps).next.1.map Entry.key
    table.slotMap = "x.xo.o......o..o" ∧
      answer 0 = some [4] ∧ answer 3 = some [16] ∧
      answer 4 = none ∧ answer 5 = none ∧
      (table.drain.advance 1).sizeHint = (3, 3) ∧
      Reachable table ∧ table.Enumerates table.slots.placements := by
  have hreach := reachable_blank.run perforated
  exact ⟨by decide +kernel, by decide +kernel, by decide +kernel,
    by decide +kernel, by decide +kernel, by decide +kernel, hreach,
    hreach.enumerates⟩

end Table

end LinearProbing
