import LinearProbing.Proofs.TableUpdates
import LinearProbing.Proofs.Traversal
import Mathlib.Data.Finmap

/-!
# The contents of a table

A table stands for a finite map from keys to values, whatever slots its
entries lie in.  A value that is stored as nothing is the empty value of the
map.  In a well-formed table the keys are distinct, so an entry of the table
is all that the map says of its key (`Consistent.lookup_contents`), and each
write to a slot is the insertion or the erasure of one key.
-/

namespace LinearProbing

abbrev Contents :=
  Finmap fun _ : Bytes => Bytes

/-- An empty value is kept as no value. -/
def Contents.kept (value : Bytes) : Option Bytes :=
  if value = [] then none else some value

def Entry.ofBytes (key value : Bytes) : Entry :=
  ⟨key, Contents.kept value, fnv1a key⟩

namespace Contents

variable {entry : Entry} {entries others : List Entry} {key : Bytes}

def ofEntries (entries : List Entry) : Contents :=
  entries.foldr
    (fun entry contents => contents.insert entry.key entry.valueBytes) ∅

def without (contents : Contents) (keys : List Bytes) : Contents :=
  keys.foldl (fun contents key => contents.erase key) contents

@[simp]
theorem ofEntries_nil : ofEntries [] = ∅ :=
  rfl

@[simp]
theorem ofEntries_cons (entry : Entry) (entries : List Entry) :
    ofEntries (entry :: entries) =
      (ofEntries entries).insert entry.key entry.valueBytes :=
  rfl

@[simp]
theorem mem_ofEntries :
    key ∈ ofEntries entries ↔ key ∈ entries.map Entry.key := by
  induction entries with
  | nil => simp [Finmap.notMem_empty]
  | cons entry entries ih =>
      rw [ofEntries_cons, Finmap.mem_insert, ih, List.map_cons,
        List.mem_cons]

theorem lookup_ofEntries (hkeys : (entries.map Entry.key).Nodup)
    (hentry : entry ∈ entries) :
    (ofEntries entries).lookup entry.key = some entry.valueBytes := by
  induction entries with
  | nil => simp at hentry
  | cons first entries ih =>
      rw [List.map_cons, List.nodup_cons] at hkeys
      rw [ofEntries_cons]
      rcases List.mem_cons.mp hentry with rfl | hlater
      · exact Finmap.lookup_insert _
      · have hne : entry.key ≠ first.key := by
          intro heq
          exact hkeys.1 (heq ▸ List.mem_map_of_mem hlater)
        rw [Finmap.lookup_insert_of_ne _ hne]
        exact ih hkeys.2 hlater

theorem ofEntries_perm (hkeys : (entries.map Entry.key).Nodup)
    (hperm : entries.Perm others) :
    ofEntries entries = ofEntries others := by
  have hothers : (others.map Entry.key).Nodup :=
    (hperm.map Entry.key).nodup_iff.mp hkeys
  apply Finmap.ext_lookup
  intro key
  by_cases hkey : key ∈ entries.map Entry.key
  · rcases List.mem_map.mp hkey with ⟨entry, hentry, rfl⟩
    rw [lookup_ofEntries hkeys hentry,
      lookup_ofEntries hothers (hperm.mem_iff.mp hentry)]
  · have hother : key ∉ others.map Entry.key := by
      rwa [← (hperm.map Entry.key).mem_iff]
    rw [Finmap.lookup_eq_none.mpr (mt mem_ofEntries.mp hkey),
      Finmap.lookup_eq_none.mpr (mt mem_ofEntries.mp hother)]

theorem keys_ofEntries (entries : List Entry) :
    (ofEntries entries).keys = (entries.map Entry.key).toFinset := by
  ext key
  rw [Finmap.mem_keys, mem_ofEntries, List.mem_toFinset]

theorem card_keys_ofEntries (hkeys : (entries.map Entry.key).Nodup) :
    (ofEntries entries).keys.card = entries.length := by
  rw [keys_ofEntries, List.toFinset_card_of_nodup hkeys, List.length_map]

theorem erase_insert {contents : Contents} (hkey : key ∉ contents)
    (value : Bytes) : (contents.insert key value).erase key = contents := by
  apply Finmap.ext_lookup
  intro other
  by_cases heq : other = key
  · rw [heq, Finmap.lookup_erase, Finmap.lookup_eq_none.mpr hkey]
  · rw [Finmap.lookup_erase_ne heq, Finmap.lookup_insert_of_ne _ heq]

theorem erase_of_not_mem {contents : Contents} (hkey : key ∉ contents) :
    contents.erase key = contents := by
  apply Finmap.ext_lookup
  intro other
  by_cases heq : other = key
  · rw [heq, Finmap.lookup_erase, Finmap.lookup_eq_none.mpr hkey]
  · exact Finmap.lookup_erase_ne heq

theorem lookup_of_insert {contents : Contents} {other value found : Bytes}
    (hlookup : (contents.insert key value).lookup other = some found) :
    found = value ∨ contents.lookup other = some found := by
  by_cases heq : other = key
  · rw [heq, Finmap.lookup_insert, Option.some.injEq] at hlookup
    exact Or.inl hlookup.symm
  · rw [Finmap.lookup_insert_of_ne _ heq] at hlookup
    exact Or.inr hlookup

theorem lookup_of_erase {contents : Contents} {other found : Bytes}
    (hlookup : (contents.erase key).lookup other = some found) :
    contents.lookup other = some found := by
  by_cases heq : other = key
  · rw [heq, Finmap.lookup_erase] at hlookup
    exact absurd hlookup nofun
  · rwa [Finmap.lookup_erase_ne heq] at hlookup

theorem without_take (hkeys : (entries.map Entry.key).Nodup)
    (steps : Nat) :
    (ofEntries entries).without ((entries.take steps).map Entry.key) =
      ofEntries (entries.drop steps) := by
  induction steps generalizing entries with
  | zero => rfl
  | succ steps ih =>
      cases entries with
      | nil => rfl
      | cons entry entries =>
          rw [List.map_cons, List.nodup_cons] at hkeys
          have hfirst :
              (ofEntries (entry :: entries)).erase entry.key =
                ofEntries entries :=
            erase_insert (mt mem_ofEntries.mp hkeys.1) entry.valueBytes
          rw [List.take_succ_cons, List.map_cons, List.drop_succ_cons,
            ← ih hkeys.2, without, List.foldl_cons, hfirst]
          rfl

end Contents

/-- Nothing but its key and its value can vary in an entry that fits. -/
theorem Entry.Fits.eq_ofBytes {keyStride valueStride : Nat} {entry : Entry}
    (hfits : entry.Fits keyStride valueStride) :
    entry = ofBytes entry.key entry.valueBytes := by
  rcases entry with ⟨key, value, hash⟩
  have hhash : hash = fnv1a key := hfits.hash_eq
  subst hhash
  cases value with
  | none => rfl
  | some bytes =>
      have hne : bytes ≠ [] := (hfits.value_fits bytes rfl).1
      simp [ofBytes, Contents.kept, valueBytes, hne]

namespace Slots

variable {slots : Slots} {index : Nat} {entry : Entry}

/-- The entries outside one slot. -/
def others (slots : Slots) (index : Nat) : List Entry :=
  slots.before index ++ slots.beyond (index + 1)

theorem entries_perm_others (hslot : slots.get index = .occupied entry) :
    slots.entries.Perm (entry :: slots.others index) := by
  rw [entries_eq (lt_size_of_occupied hslot), hslot]
  exact List.perm_middle

theorem entries_put_occupied_perm (hindex : index < slots.size) :
    (slots.put index (.occupied entry)).entries.Perm
      (entry :: slots.others index) := by
  rw [entries_put hindex]
  exact List.perm_middle

theorem entries_put_of_content_nil (hindex : index < slots.size)
    {slot : Slot} (hslot : slot.content = []) :
    (slots.put index slot).entries = slots.others index := by
  rw [entries_put hindex, hslot]
  rfl

end Slots

namespace Table

variable {table grown : Table} {entry : Entry} {key value : View}
  {index step fitted : Nat}

def contents (table : Table) : Contents :=
  .ofEntries table.slots.entries

theorem mem_contents {key : Bytes} :
    key ∈ table.contents ↔ key ∈ table.slots.entries.map Entry.key :=
  Contents.mem_ofEntries

theorem Consistent.lookup_contents (hgood : table.Consistent)
    (hslot : table.slots.get index = .occupied entry) :
    table.contents.lookup entry.key = some entry.valueBytes :=
  Contents.lookup_ofEntries hgood.sound.nodup_keys
    (Slots.mem_entries.mpr ⟨index, hslot⟩)

theorem Consistent.card_contents (hgood : table.Consistent) :
    table.contents.keys.card = table.count := by
  rw [contents, Contents.card_keys_ofEntries hgood.sound.nodup_keys,
    hgood.length_entries]

theorem Consistent.nil_not_mem_contents (hgood : table.Consistent) :
    [] ∉ table.contents := by
  rw [mem_contents, List.mem_map]
  rintro ⟨entry, hentry, hnil⟩
  exact (hgood.fits entry hentry).key_ne_nil hnil

/-! ## What an update does to the contents -/

theorem Consistent.contents_seat (hgood : table.Consistent)
    (hkey : key.Aligned) (hvalue : value.Aligned)
    (haccept : table.pairFault? key value = none)
    (habsent : key.bytes ∉ table.slots.entries.map Entry.key)
    (hfirst : table.slots.FirstEmpty (fnv1a key.bytes) step) :
    (table.seat key value step).contents =
      table.contents.insert key.bytes value.bytes := by
  have hseat := hgood.seat hkey hvalue haccept habsent hfirst
  have hperm :
      (table.seat key value step).slots.entries.Perm
        (Entry.ofViews key value :: table.slots.entries) :=
    Slots.entries_put_perm (Ring.walk_lt hgood.sound.binary _ _)
      hfirst.empty _
  rw [contents, Contents.ofEntries_perm hseat.sound.nodup_keys hperm,
    Contents.ofEntries_cons]
  simp [Entry.ofViews, Entry.valueBytes, contents]

theorem WellFormed.contents_revalue (hgood : table.WellFormed)
    (hslot : table.slots.get index = .occupied entry)
    (hvalue : ∀ bytes, value.stored = some bytes →
      bytes ≠ [] ∧ table.valueStride ∣ bytes.length) :
    (table.revalue index entry value.stored).contents =
      table.contents.insert entry.key value.bytes := by
  have hold := Slots.entries_perm_others hslot
  have hnew :
      (table.revalue index entry value.stored).slots.entries.Perm
        ({ entry with value := value.stored } :: table.slots.others index) :=
    Slots.entries_put_occupied_perm (Slots.lt_size_of_occupied hslot)
  have hafter := hgood.revalue hslot hvalue
  rw [contents, contents,
    Contents.ofEntries_perm hafter.sound.nodup_keys hnew,
    Contents.ofEntries_perm hgood.sound.nodup_keys hold,
    Contents.ofEntries_cons, Contents.ofEntries_cons, Finmap.insert_insert,
    Entry.valueBytes, View.stored_getD]

theorem Consistent.contents_put (hgood : table.Consistent)
    (hslot : table.slots.get index = .occupied entry) {slot : Slot}
    (hcontent : slot.content = []) :
    Contents.ofEntries (table.slots.put index slot).entries =
      table.contents.erase entry.key := by
  have hkeys := hgood.sound.nodup_keys
  have hold := Slots.entries_perm_others hslot
  have hfresh : entry.key ∉ Contents.ofEntries (table.slots.others index) := by
    rw [(hold.map Entry.key).nodup_iff, List.map_cons,
      List.nodup_cons] at hkeys
    exact mt Contents.mem_ofEntries.mp hkeys.1
  rw [Slots.entries_put_of_content_nil (Slots.lt_size_of_occupied hslot)
      hcontent,
    contents, Contents.ofEntries_perm hgood.sound.nodup_keys hold,
    Contents.ofEntries_cons, Contents.erase_insert hfresh]

theorem Consistent.contents_vacate (hgood : table.Consistent)
    (hslot : table.slots.get index = .occupied entry) :
    (table.vacate index).contents = table.contents.erase entry.key :=
  hgood.contents_put hslot rfl

theorem Consistent.contents_bury (hgood : table.Consistent)
    (hslot : table.slots.get index = .occupied entry) :
    (table.bury index).contents = table.contents.erase entry.key :=
  hgood.contents_put hslot rfl

@[simp]
theorem contents_clear (table : Table) : table.clear.contents = ∅ := by
  simp [contents, clear]

theorem GrowsInto.contents_eq (hgrows : table.GrowsInto fitted grown) :
    grown.contents = table.contents :=
  Contents.ofEntries_perm hgrows.settles.sound.nodup_keys
    hgrows.entries_perm

theorem WellFormed.contents_abandon (hgood : table.WellFormed)
    (steps : Nat) :
    (table.drain.take steps).2.abandon.contents =
      table.contents.without
        ((table.drain.take steps).1.map Entry.key) := by
  obtain ⟨hyield, hleft, -⟩ := hgood.drain_onward.take steps
  change (table.drain.take steps).1 = table.slots.entries.take steps
    at hyield
  change (table.drain.take steps).2.table.slots.entries =
    table.slots.entries.drop steps at hleft
  rw [hyield, contents, Drain.abandon, hleft, contents,
    Contents.without_take hgood.sound.nodup_keys]

end Table

end LinearProbing
