import LinearProbing.Proofs.Placement
import LinearProbing.Table.Outline
import Mathlib.Data.List.GetD

/-!
# The layout of a slot array

What a layout shows of an array is the marks of its slots and the spread of
its entries, that is the sum of their distances from home.  Two arrays are
laid out alike if they agree in both; which entry lies in which slot is left
open.  The first empty slot of a walk can be read off the marks, so a new
entry goes to the same slot of arrays that are laid out alike, and they stay
so (`Alike.put_first`).
-/

namespace LinearProbing.Slots

variable {slots left right : Slots} {entry : Entry} {hash : UInt32}
  {index step : Nat}

def marks (slots : Slots) : List Char :=
  slots.toList.map Slot.mark

/-- The sum of the distances of all entries from their homes. -/
def spread (slots : Slots) : Nat :=
  (slots.placements.map fun (index, entry) =>
    Ring.displacement slots.size index entry.hash).sum

structure Alike (left right : Slots) : Prop where
  marks_eq : left.marks = right.marks
  spread_eq : left.spread = right.spread

/-! ## Marks -/

theorem length_marks (slots : Slots) : slots.marks.length = slots.size := by
  rw [marks, List.length_map, length_toList]

theorem getD_marks (slots : Slots) (index : Nat) :
    slots.marks.getD index '.' = (slots.get index).mark := by
  by_cases hindex : index < slots.size
  · have hlist : index < slots.toList.length := by
      rwa [length_toList]
    have hmarks : index < slots.marks.length := by
      rwa [length_marks]
    rw [List.getD_eq_getElem _ _ hmarks, ← getElem_toList hlist]
    exact List.getElem_map Slot.mark
  · have hover : slots.size ≤ index := Nat.le_of_not_gt hindex
    rw [get_of_size_le hover, List.getD_eq_default _ _ (by rwa [length_marks])]
    rfl

theorem marks_put (slots : Slots) (index : Nat) (slot : Slot) :
    (slots.put index slot).marks = slots.marks.set index slot.mark := by
  rw [marks, toList_put, List.map_set, marks]

theorem mark_eq_dot_iff (slot : Slot) : slot.mark = '.' ↔ slot = .empty := by
  cases slot <;> simp [Slot.mark]

/-! ## Spread -/

/-- The placements in slots that are numbered from `start`. -/
def placed (start : Nat) (cells : List Slot) : List (Nat × Entry) :=
  (cells.zipIdx start).filterMap fun cell =>
    Option.map (fun entry => (cell.2, entry)) <| Slot.entry? cell.1

theorem placements_eq_placed (slots : Slots) :
    slots.placements = placed 0 slots.toList :=
  rfl

theorem placed_cons (start : Nat) (slot : Slot) (cells : List Slot) :
    placed start (slot :: cells) =
      slot.content.map (fun entry => (start, entry)) ++
        placed (start + 1) cells := by
  unfold placed
  rw [List.zipIdx_cons, List.filterMap_cons]
  cases slot <;> rfl

theorem placed_set_perm {cells : List Slot} (start : Nat)
    (hindex : index < cells.length) (hempty : cells[index] = .empty)
    (entry : Entry) :
    (placed start (cells.set index (.occupied entry))).Perm
      ((start + index, entry) :: placed start cells) := by
  induction cells generalizing start index with
  | nil => simp at hindex
  | cons slot cells ih =>
      cases index with
      | zero =>
          rw [List.getElem_cons_zero] at hempty
          subst hempty
          exact .refl _
      | succ index =>
          have hrest := ih (start + 1) (by simpa using hindex)
            (by simpa using hempty)
          rw [show start + 1 + index = start + (index + 1) by omega] at hrest
          rw [List.set_cons_succ, placed_cons, placed_cons]
          exact (hrest.append_left _).trans List.perm_middle

theorem map_snd_placed (start : Nat) (cells : List Slot) :
    (placed start cells).map Prod.snd = cells.filterMap Slot.entry? := by
  induction cells generalizing start with
  | nil => rfl
  | cons slot cells ih =>
      rw [placed_cons, List.map_append, ih, List.filterMap_cons]
      cases slot <;> rfl

theorem length_placements (slots : Slots) :
    slots.placements.length = slots.entries.length := by
  rw [placements_eq_placed, ← List.length_map Prod.snd, map_snd_placed,
    entries]

theorem placements_put_perm (hindex : index < slots.size)
    (hempty : slots.get index = .empty) (entry : Entry) :
    (slots.put index (.occupied entry)).placements.Perm
      ((index, entry) :: slots.placements) := by
  have hlist : index < slots.toList.length := by
    rwa [length_toList]
  have hperm := placed_set_perm 0 hlist
    (by rw [getElem_toList, hempty]) entry
  rw [Nat.zero_add] at hperm
  rwa [placements_eq_placed, placements_eq_placed, toList_put]

theorem spread_put (hindex : index < slots.size)
    (hempty : slots.get index = .empty) (entry : Entry) :
    (slots.put index (.occupied entry)).spread =
      Ring.displacement slots.size index entry.hash + slots.spread := by
  have hperm := placements_put_perm hindex hempty entry
  unfold spread
  rw [size_put, (hperm.map _).sum_nat, List.map_cons, List.sum_cons]

theorem spread_put_first (hbinary : Ring.IsBinary slots.size)
    (hword : slots.size ≤ UInt64.size)
    (hfirst : slots.FirstEmpty entry.hash step) :
    (slots.put (Ring.walk slots.size entry.hash step)
      (.occupied entry)).spread = step + slots.spread := by
  rw [spread_put (Ring.walk_lt hbinary _ _) hfirst.empty,
    Ring.displacement_walk hbinary hword _ hfirst.lt_size]

/-! ## Arrays laid out alike -/

theorem Alike.refl (slots : Slots) : slots.Alike slots :=
  ⟨rfl, rfl⟩

theorem Alike.symm (halike : left.Alike right) : right.Alike left :=
  ⟨halike.marks_eq.symm, halike.spread_eq.symm⟩

theorem Alike.trans {first second third : Slots}
    (hfirst : first.Alike second) (hsecond : second.Alike third) :
    first.Alike third :=
  ⟨hfirst.marks_eq.trans hsecond.marks_eq,
    hfirst.spread_eq.trans hsecond.spread_eq⟩

theorem Alike.size_eq (halike : left.Alike right) :
    left.size = right.size := by
  rw [← length_marks, halike.marks_eq, length_marks]

theorem Alike.mark_eq (halike : left.Alike right) (index : Nat) :
    (left.get index).mark = (right.get index).mark := by
  rw [← getD_marks, halike.marks_eq, getD_marks]

theorem Alike.empty_iff (halike : left.Alike right) (index : Nat) :
    left.get index = .empty ↔ right.get index = .empty := by
  rw [← mark_eq_dot_iff, halike.mark_eq, mark_eq_dot_iff]

theorem Alike.firstEmpty (halike : left.Alike right)
    (hfirst : left.FirstEmpty hash step) : right.FirstEmpty hash step where
  lt_size := halike.size_eq ▸ hfirst.lt_size
  empty := by
    have hempty := hfirst.empty
    unfold visited at hempty ⊢
    rwa [halike.empty_iff, halike.size_eq] at hempty
  passes := by
    intro earlier hlt
    have hpass := hfirst.passes earlier hlt
    unfold visited at hpass ⊢
    rwa [ne_eq, halike.empty_iff, halike.size_eq] at hpass

theorem Alike.put_first (halike : left.Alike right)
    (hbinary : Ring.IsBinary left.size) (hword : left.size ≤ UInt64.size)
    (hfirst : left.FirstEmpty entry.hash step) :
    (left.put (Ring.walk left.size entry.hash step) (.occupied entry)).Alike
      (right.put (Ring.walk right.size entry.hash step)
        (.occupied entry)) := by
  have hsize := halike.size_eq
  constructor
  · rw [marks_put, marks_put, halike.marks_eq, hsize]
  · rw [spread_put_first hbinary hword hfirst,
      spread_put_first (hsize ▸ hbinary) (hsize ▸ hword)
        (halike.firstEmpty hfirst),
      halike.spread_eq]

end LinearProbing.Slots
