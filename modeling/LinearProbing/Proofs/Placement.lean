import LinearProbing.Proofs.ProbeWalk
import Mathlib.Data.List.Nodup

/-!
# Sound slot arrays

An array is sound if no key stands in it twice and if the walk of every
entry's hash reaches the entry without meeting an empty slot.  In a sound
array a probe for a stored key ends at its entry, and a probe for any other
key at the first empty slot of its walk.

Every write that the table makes keeps an array sound.  Writes that empty no
slot cut no walk.  A slot may be emptied if the slot after it is empty: a walk
that passed through both would have met an empty slot already.
-/

namespace LinearProbing.Slots

variable {slots other : Slots} {key : Bytes} {hash : UInt32}
  {index step : Nat} {entry : Entry}

/-- The walk of a hash comes to a slot before it meets an empty one. -/
def Reaches (slots : Slots) (hash : UInt32) (index : Nat) : Prop :=
  ∃ step < slots.size,
    Ring.walk slots.size hash step = index ∧
      ∀ earlier < step, slots.visited hash earlier ≠ .empty

structure Sound (slots : Slots) : Prop where
  binary : Ring.IsBinary slots.size
  reaches :
    ∀ index entry, slots.get index = .occupied entry →
      slots.Reaches entry.hash index
  distinct :
    ∀ first second left right,
      slots.get first = .occupied left →
      slots.get second = .occupied right →
      left.key = right.key → first = second

/-! ## Probing a sound array -/

/-- A probe for a stored key stops at its entry and nowhere before. -/
theorem Sound.firstStop_occupied (hsound : slots.Sound)
    (hslot : slots.get index = .occupied entry) :
    ∃ step, slots.FirstStop entry.key entry.hash step ∧
      Ring.walk slots.size entry.hash step = index := by
  obtain ⟨step, hstep, hwalk, hpasses⟩ := hsound.reaches index entry hslot
  have hvisited : slots.visited entry.hash step = .occupied entry := by
    rw [visited, hwalk, hslot]
  refine ⟨step, ⟨hstep, by rw [hvisited]; exact ⟨rfl, rfl⟩, ?_⟩, hwalk⟩
  intro earlier hlt hstops
  cases hearlier : slots.visited entry.hash earlier with
  | empty => exact hpasses earlier hlt hearlier
  | tombstone => rw [hearlier] at hstops; exact hstops
  | occupied found =>
      -- an earlier entry of the same key would be the same slot
      rw [hearlier, Slot.stops_occupied] at hstops
      have hmeet : Ring.walk slots.size entry.hash earlier = index :=
        hsound.distinct _ _ found entry hearlier hslot hstops.2
      have hsame : earlier = step :=
        Ring.walk_injective hsound.binary (by omega) hstep
          (hmeet.trans hwalk.symm)
      omega

theorem Sound.probe_occupied (hsound : slots.Sound)
    (hslot : slots.get index = .occupied entry) :
    slots.probe entry.key entry.hash = .ok (.present index entry) := by
  obtain ⟨step, hfirst, hwalk⟩ := hsound.firstStop_occupied hslot
  rw [probe_of_firstStop hfirst, landing, hwalk, hslot]

theorem probe_of_firstEmpty (hfirst : slots.FirstEmpty hash step)
    (habsent : key ∉ slots.entries.map Entry.key) :
    slots.probe key hash =
      .ok (.absent (Ring.walk slots.size hash step)) := by
  have hstop : slots.FirstStop key hash step := by
    apply hfirst.firstStop
    intro earlier _ entry hslot hkey
    exact habsent (mem_keys.mpr ⟨_, entry, hslot, hkey⟩)
  have hempty := hfirst.empty
  unfold visited at hempty
  rw [probe_of_firstStop hstop, landing, hempty]

/-- A probe of a sound array with an empty slot, where every entry of the key
has the hash that is asked for. -/
theorem Sound.probe_cases (hsound : slots.Sound)
    (hempty : ∃ index < slots.size, slots.get index = .empty)
    (hhash : ∀ entry ∈ slots.entries, entry.key = key → entry.hash = hash) :
    (∃ index entry, slots.get index = .occupied entry ∧ entry.key = key ∧
        slots.probe key hash = .ok (.present index entry)) ∨
      (key ∉ slots.entries.map Entry.key ∧
        ∃ step, slots.FirstEmpty hash step ∧
          slots.probe key hash =
            .ok (.absent (Ring.walk slots.size hash step))) := by
  by_cases hmem : key ∈ slots.entries.map Entry.key
  · rcases List.mem_map.mp hmem with ⟨entry, hentry, rfl⟩
    obtain ⟨index, hslot⟩ := mem_entries.mp hentry
    refine Or.inl ⟨index, entry, hslot, rfl, ?_⟩
    rw [← hhash entry hentry rfl]
    exact hsound.probe_occupied hslot
  · obtain ⟨step, hfirst⟩ := exists_firstEmpty hsound.binary hempty hash
    exact Or.inr
      ⟨hmem, step, hfirst, probe_of_firstEmpty hfirst hmem⟩

/-! ## Writes that keep an array sound -/

theorem Reaches.mono (hsize : other.size = slots.size)
    (hfull : ∀ index, slots.get index ≠ .empty → other.get index ≠ .empty)
    (hreaches : slots.Reaches hash index) : other.Reaches hash index := by
  rcases hreaches with ⟨step, hstep, hwalk, hpasses⟩
  refine ⟨step, by rwa [hsize], by rwa [hsize], ?_⟩
  intro earlier hlt
  unfold visited
  rw [hsize]
  exact hfull _ (hpasses earlier hlt)

theorem get_put_ne_empty (hindex : index < slots.size) {slot : Slot}
    (hslot : slot ≠ .empty) (position : Nat)
    (hfull : slots.get position ≠ .empty) :
    (slots.put index slot).get position ≠ .empty := by
  rw [get_put hindex]
  by_cases heq : position = index
  · rwa [if_pos heq]
  · rwa [if_neg heq]

/-- A write that brings no entry shows only entries that were there. -/
theorem get_of_put_occupied (hindex : index < slots.size) {slot : Slot}
    (hcontent : slot.content = []) {position : Nat}
    (hslot : (slots.put index slot).get position = .occupied entry) :
    slots.get position = .occupied entry := by
  rw [get_put hindex] at hslot
  by_cases heq : position = index
  · rw [if_pos heq] at hslot
    simp [hslot, Slot.content] at hcontent
  · rwa [if_neg heq] at hslot

theorem sound_blank {size : Nat} (hbinary : Ring.IsBinary size) :
    (blank size).Sound where
  binary := by rwa [size_blank]
  reaches := by simp
  distinct := by simp

theorem Sound.put_tombstone (hsound : slots.Sound)
    (hindex : index < slots.size) : (slots.put index .tombstone).Sound where
  binary := by
    rw [size_put]
    exact hsound.binary
  reaches := by
    intro position entry hslot
    have hold := get_of_put_occupied hindex rfl hslot
    exact (hsound.reaches position entry hold).mono
      (size_put slots index .tombstone)
      (get_put_ne_empty hindex (by simp))
  distinct := by
    intro first second left right hleft hright
    exact hsound.distinct first second left right
      (get_of_put_occupied hindex rfl hleft)
      (get_of_put_occupied hindex rfl hright)

/-- An entry may be exchanged for one of the same key and hash. -/
theorem Sound.put_update (hsound : slots.Sound)
    (hslot : slots.get index = .occupied entry) {updated : Entry}
    (hkey : updated.key = entry.key) (hhash : updated.hash = entry.hash) :
    (slots.put index (.occupied updated)).Sound := by
  have hindex := lt_size_of_occupied hslot
  have hold : ∀ position found,
      (slots.put index (.occupied updated)).get position =
          .occupied found →
        ∃ previous, slots.get position = .occupied previous ∧
          found.key = previous.key ∧ found.hash = previous.hash := by
    intro position found hfound
    rw [get_put hindex] at hfound
    by_cases heq : position = index
    · rw [if_pos heq, Slot.occupied.injEq] at hfound
      subst hfound
      exact ⟨entry, heq ▸ hslot, hkey, hhash⟩
    · rw [if_neg heq] at hfound
      exact ⟨found, hfound, rfl, rfl⟩
  refine ⟨by rw [size_put]; exact hsound.binary, ?_, ?_⟩
  · intro position found hfound
    obtain ⟨previous, hprevious, -, hsame⟩ := hold position found hfound
    rw [hsame]
    exact (hsound.reaches position previous hprevious).mono
      (size_put slots index (.occupied updated))
      (get_put_ne_empty hindex (by simp))
  · intro first second left right hleft hright heq
    obtain ⟨oldLeft, holdLeft, hkeyLeft, -⟩ := hold first left hleft
    obtain ⟨oldRight, holdRight, hkeyRight, -⟩ := hold second right hright
    exact hsound.distinct first second oldLeft oldRight holdLeft holdRight
      (by rw [← hkeyLeft, ← hkeyRight, heq])

/-- A new entry may go into the first empty slot of its walk. -/
theorem Sound.put_first (hsound : slots.Sound)
    (hfirst : slots.FirstEmpty entry.hash step)
    (habsent : entry.key ∉ slots.entries.map Entry.key) :
    (slots.put (Ring.walk slots.size entry.hash step)
      (.occupied entry)).Sound := by
  have hindex := Ring.walk_lt hsound.binary entry.hash step
  have hfull : ∀ position, slots.get position ≠ .empty →
      (slots.put (Ring.walk slots.size entry.hash step)
        (.occupied entry)).get position ≠ .empty :=
    get_put_ne_empty hindex (by simp)
  have hfresh : ∀ position found,
      slots.get position = .occupied found → found.key ≠ entry.key := by
    intro position found hfound heq
    exact habsent (mem_keys.mpr ⟨position, found, hfound, heq⟩)
  refine ⟨by rw [size_put]; exact hsound.binary, ?_, ?_⟩
  · intro position found hfound
    rw [get_put hindex] at hfound
    by_cases heq : position = Ring.walk slots.size entry.hash step
    · rw [if_pos heq, Slot.occupied.injEq] at hfound
      subst hfound
      have hreaches : slots.Reaches entry.hash position :=
        ⟨step, hfirst.lt_size, heq.symm, hfirst.passes⟩
      exact hreaches.mono (size_put _ _ _) hfull
    · rw [if_neg heq] at hfound
      exact (hsound.reaches position found hfound).mono
        (size_put _ _ _) hfull
  · intro first second left right hleft hright heq
    rw [get_put hindex] at hleft hright
    by_cases hone : first = Ring.walk slots.size entry.hash step <;>
      by_cases htwo : second = Ring.walk slots.size entry.hash step
    · rw [hone, htwo]
    · rw [if_pos hone, Slot.occupied.injEq] at hleft
      rw [if_neg htwo] at hright
      exact absurd (hleft ▸ heq.symm) (hfresh second right hright)
    · rw [if_neg hone] at hleft
      rw [if_pos htwo, Slot.occupied.injEq] at hright
      exact absurd (hright ▸ heq) (hfresh first left hleft)
    · rw [if_neg hone] at hleft
      rw [if_neg htwo] at hright
      exact hsound.distinct first second left right hleft hright heq

/-- No walk to another entry runs through a slot with an empty one behind
it. -/
theorem Reaches.put_empty (hbinary : Ring.IsBinary slots.size)
    (hindex : index < slots.size)
    (hnext : slots.get (Ring.after slots.size index) = .empty)
    {position : Nat} (hposition : slots.get position ≠ .empty)
    (hreaches : slots.Reaches hash position) :
    (slots.put index .empty).Reaches hash position := by
  rcases hreaches with ⟨step, hstep, hwalk, hpasses⟩
  refine ⟨step, by rwa [size_put], by rwa [size_put], ?_⟩
  intro earlier hlt
  unfold visited
  rw [size_put, get_put hindex]
  by_cases heq : Ring.walk slots.size hash earlier = index
  · -- the step behind the emptied slot is either passed or the last one
    have hbehind : slots.visited hash (earlier + 1) = .empty := by
      rw [visited, ← Ring.after_walk hbinary, heq, hnext]
    rcases Nat.lt_or_ge (earlier + 1) step with hpassed | hlast
    · exact absurd hbehind (hpasses (earlier + 1) hpassed)
    · have hsame : earlier + 1 = step := by omega
      rw [hsame, visited, hwalk] at hbehind
      exact absurd hbehind hposition
  · rw [if_neg heq]
    exact hpasses earlier hlt

theorem Sound.put_empty (hsound : slots.Sound) (hindex : index < slots.size)
    (hnext : slots.get (Ring.after slots.size index) = .empty) :
    (slots.put index .empty).Sound where
  binary := by
    rw [size_put]
    exact hsound.binary
  reaches := by
    intro position entry hslot
    have hold := get_of_put_occupied hindex rfl hslot
    exact (hsound.reaches position entry hold).put_empty hsound.binary
      hindex hnext (by simp [hold])
  distinct := by
    intro first second left right hleft hright
    exact hsound.distinct first second left right
      (get_of_put_occupied hindex rfl hleft)
      (get_of_put_occupied hindex rfl hright)

theorem Sound.nodup_keys (hsound : slots.Sound) :
    (slots.entries.map Entry.key).Nodup := by
  unfold entries List.Nodup
  rw [List.pairwise_map, List.pairwise_filterMap, List.pairwise_iff_getElem]
  intro first second hfirst hsecond hlt left hleft right hright heq
  rw [getElem_toList, Slot.entry?_eq_some_iff] at hleft hright
  have hsame := hsound.distinct first second left right hleft hright heq
  omega

/-! ## Settling a list of entries -/

theorem entries_put_perm (hindex : index < slots.size)
    (hempty : slots.get index = .empty) (entry : Entry) :
    (slots.put index (.occupied entry)).entries.Perm
      (entry :: slots.entries) := by
  rw [entries_put hindex, entries_eq hindex, hempty]
  exact List.perm_middle

/-- What settling a list of entries makes of an array. -/
structure Settles (slots : Slots) (entries : List Entry)
    (settled : Slots) : Prop where
  eq_ok : slots.settleAll entries = .ok settled
  sound : settled.Sound
  size_eq : settled.size = slots.size
  perm : settled.entries.Perm (slots.entries ++ entries)
  tombstones : settled.tally Slot.isTombstone = slots.tally Slot.isTombstone

theorem settleAll_cons {rest : List Entry}
    (hsettle : slots.settle entry = .ok other) :
    slots.settleAll (entry :: rest) = other.settleAll rest := by
  unfold settleAll
  rw [List.foldlM_cons, hsettle]
  rfl

/-- A sound array with room for some entries, all of them of new keys. -/
structure Hosts (slots : Slots) (entries : List Entry) : Prop where
  sound : slots.Sound
  distinct : ((slots.entries ++ entries).map Entry.key).Nodup
  room : slots.entries.length + slots.tally Slot.isTombstone +
    entries.length ≤ slots.size

theorem tombstones_put_first (hbinary : Ring.IsBinary slots.size)
    (hfirst : slots.FirstEmpty entry.hash step) :
    (slots.put (Ring.walk slots.size entry.hash step)
      (.occupied entry)).tally Slot.isTombstone =
        slots.tally Slot.isTombstone := by
  have hslot : slots.get (Ring.walk slots.size entry.hash step) = .empty :=
    hfirst.empty
  have htally := tally_put (Ring.walk_lt hbinary entry.hash step)
    (.occupied entry) Slot.isTombstone
  rw [hslot] at htally
  exact htally

/-- The first of the entries finds an empty slot on its walk, and then there
is still room for the others. -/
theorem Hosts.put_first {rest : List Entry}
    (hhosts : slots.Hosts (entry :: rest)) :
    ∃ step, slots.FirstEmpty entry.hash step ∧
      entry.key ∉ slots.entries.map Entry.key ∧
      (slots.put (Ring.walk slots.size entry.hash step)
        (.occupied entry)).Hosts rest := by
  have hroom := hhosts.room
  rw [List.length_cons] at hroom
  have hempty : ∃ index < slots.size, slots.get index = .empty := by
    apply exists_empty
    rw [← length_entries]
    omega
  have habsent : entry.key ∉ slots.entries.map Entry.key := by
    have hkeys := hhosts.distinct
    rw [List.map_append, List.nodup_append] at hkeys
    intro hmem
    exact hkeys.2.2 _ hmem _ (by simp) rfl
  have hbinary := hhosts.sound.binary
  obtain ⟨step, hfirst⟩ := exists_firstEmpty hbinary hempty entry.hash
  have hperm := entries_put_perm (Ring.walk_lt hbinary entry.hash step)
    hfirst.empty entry
  have hshift := (hperm.append_right rest).trans List.perm_middle.symm
  refine ⟨step, hfirst, habsent, hhosts.sound.put_first hfirst habsent,
    (hshift.map Entry.key).nodup_iff.mpr hhosts.distinct, ?_⟩
  rw [hperm.length_eq, tombstones_put_first hbinary hfirst, size_put,
    List.length_cons]
  omega

theorem Hosts.exists_settles {entries : List Entry}
    (hhosts : slots.Hosts entries) :
    ∃ settled, slots.Settles entries settled := by
  induction entries generalizing slots with
  | nil => exact ⟨slots, rfl, hhosts.sound, rfl, by simp, rfl⟩
  | cons entry rest ih =>
      obtain ⟨step, hfirst, -, hrest⟩ := hhosts.put_first
      obtain ⟨settled, hsettles⟩ := ih hrest
      have hbinary := hhosts.sound.binary
      have hsettle := settle_of_firstEmpty hbinary hfirst
      have hperm := entries_put_perm (Ring.walk_lt hbinary entry.hash step)
        hfirst.empty entry
      have hshift := (hperm.append_right rest).trans List.perm_middle.symm
      exact
        ⟨settled,
          { eq_ok := (settleAll_cons hsettle).trans hsettles.eq_ok
            sound := hsettles.sound
            size_eq := hsettles.size_eq.trans (size_put _ _ _)
            perm := hsettles.perm.trans hshift
            tombstones := hsettles.tombstones.trans
              (tombstones_put_first hbinary hfirst) }⟩

/-- A blank array hosts no more entries than it has slots. -/
theorem hosts_blank {size : Nat} {entries : List Entry}
    (hbinary : Ring.IsBinary size)
    (hkeys : (entries.map Entry.key).Nodup)
    (hroom : entries.length ≤ size) : (blank size).Hosts entries where
  sound := sound_blank hbinary
  distinct := by rwa [entries_blank, List.nil_append]
  room := by
    rw [entries_blank, tally_blank, size_blank]
    simpa [Slot.isTombstone] using hroom

end LinearProbing.Slots
