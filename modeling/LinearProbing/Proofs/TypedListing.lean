import LinearProbing.Proofs.EntryWalks
import LinearProbing.Proofs.TypedMapSessions

/-!
# Listing a typed map

A map is listed in three ways, as pairs, as keys and as values, and each of
them passes over what its codecs do not read.  So the three need not have the
same length, and all that can be said in general is that each lists what it
can read in the order of the slots.

If the codecs read back what they write, nothing is passed over.  That is an
invariant of the calls and not of the codecs: only encodings are ever written
(`Contents.WrittenBy`), and as they have bytes, each stored value is there.
-/

namespace LinearProbing

variable {Key Value : Type} {keys : Codec Key} {values : Codec Value}

open Dictionary (encoded)

/-! ## What typed calls write -/

namespace Contents

variable {contents : Contents}

/-- All keys and values are encodings. -/
def WrittenBy (keys : Codec Key) (values : Codec Value)
    (contents : Contents) : Prop :=
  ∀ key value, contents.lookup key = some value →
    key ∈ Set.range keys.encode ∧ value ∈ Set.range values.encode

theorem writtenBy_empty : WrittenBy keys values ∅ := by
  intro key value hlookup
  simp at hlookup

theorem WrittenBy.insert (hwritten : contents.WrittenBy keys values)
    (key : Key) (value : Value) :
    WrittenBy keys values
      (contents.insert (keys.encode key) (values.encode value)) := by
  intro other found hlookup
  by_cases heq : other = keys.encode key
  · rw [heq, Finmap.lookup_insert, Option.some.injEq] at hlookup
    exact ⟨⟨key, heq.symm⟩, ⟨value, hlookup⟩⟩
  · rw [Finmap.lookup_insert_of_ne _ heq] at hlookup
    exact hwritten other found hlookup

theorem WrittenBy.erase (hwritten : contents.WrittenBy keys values)
    (key : Bytes) : WrittenBy keys values (contents.erase key) := by
  intro other found hlookup
  exact hwritten other found (lookup_of_erase hlookup)

end Contents

namespace Dictionary

variable {contents next : Contents}

theorem Answers.writtenBy {limit : Nat} {call : TypedMap.Call Key Value}
    {result : Except Fault (TypedMap.Reply Value)}
    (hanswers : (encoded keys values).Answers limit contents call result next)
    (hwritten : contents.WrittenBy keys values) :
    next.WrittenBy keys values := by
  cases hanswers with
  | @insert key value => exact hwritten.insert key value
  | erase => exact hwritten.erase _
  | clear => exact Contents.writtenBy_empty
  | get => exact hwritten
  | contains => exact hwritten
  | reserve => exact hwritten
  | starved => exact hwritten

theorem Follows.writtenBy {requests : List (TypedMap.Request Key Value)}
    {results : List (Except Fault (TypedMap.Reply Value))}
    (hfollows : (encoded keys values).Follows contents requests results next)
    (hwritten : contents.WrittenBy keys values) :
    next.WrittenBy keys values := by
  induction hfollows with
  | nil => exact hwritten
  | cons hfirst _ ih => exact ih (hfirst.writtenBy hwritten)

end Dictionary

/-! ## Reading the slots in order -/

/-- The list of what can be read of the entries, in the order of the slots. -/
def Slots.Yields {Item : Type} (slots : Slots) (reads : Entry → Item → Prop)
    (items : List Item) : Prop :=
  ∃ placed : List (Nat × Item),
    placed.Pairwise (fun first second => first.1 < second.1) ∧
      (∀ index item, (index, item) ∈ placed ↔
        ∃ entry, slots.get index = .occupied entry ∧ reads entry item) ∧
      items = placed.map Prod.snd

theorem Slots.yields_filterMap {Item : Type} {slots : Slots}
    {reads : Entry → Item → Prop} {read : Entry → Option Item}
    (hread : ∀ entry item, read entry = some item ↔ reads entry item) :
    slots.Yields reads (slots.entries.filterMap read) := by
  have horder := slots.inOrder_placements
  refine ⟨slots.placements.filterMap fun placement =>
    (read placement.2).map fun item => (placement.1, item), ?_, ?_, ?_⟩
  · rw [List.pairwise_filterMap]
    apply horder.ascending.imp
    intro first second hlt left hleft right hright
    obtain ⟨item, -, rfl⟩ := Option.map_eq_some_iff.mp hleft
    obtain ⟨other, -, rfl⟩ := Option.map_eq_some_iff.mp hright
    exact hlt
  · intro index item
    rw [List.mem_filterMap]
    constructor
    · rintro ⟨⟨position, entry⟩, hmem, hplaced⟩
      obtain ⟨found, hfound, heq⟩ := Option.map_eq_some_iff.mp hplaced
      obtain ⟨rfl, rfl⟩ := Prod.mk.inj heq
      exact ⟨entry, (horder.mem_iff _ _).mp hmem,
        (hread entry _).mp hfound⟩
    · rintro ⟨entry, hslot, hreads⟩
      refine ⟨(index, entry), (horder.mem_iff _ _).mpr hslot, ?_⟩
      rw [(hread entry item).mpr hreads, Option.map_some]
  · rw [← Slots.map_snd_placements, List.filterMap_map, List.map_filterMap]
    apply List.filterMap_congr
    intro placement _
    simp

/-- The entry holds a pair as the codecs write it. -/
structure Entry.Spells (keys : Codec Key) (values : Codec Value)
    (entry : Entry) (pair : Key × Value) : Prop where
  key_eq : entry.key = keys.encode pair.1
  value_eq : entry.value = some (values.encode pair.2)

theorem Entry.Spells.valueBytes_eq {entry : Entry} {pair : Key × Value}
    (hspells : entry.Spells keys values pair) :
    entry.valueBytes = values.encode pair.2 := by
  rw [valueBytes, hspells.value_eq, Option.getD_some]

namespace TypedMap

variable {map : TypedMap keys values} {entry : Entry} {pair : Key × Value}

/-! ## One entry -/

theorem readKey_eq_some_iff {key : Key} :
    readKey keys entry = some key ↔ keys.decode entry.key = some key :=
  Iff.rfl

theorem readValue_eq_some_iff {value : Value} :
    readValue values entry = some value ↔
      ∃ bytes, entry.value = some bytes ∧ values.decode bytes = some value :=
  Option.bind_eq_some_iff

theorem readPair_eq_some_iff :
    readPair keys values entry = some pair ↔
      readKey keys entry = some pair.1 ∧
        readValue values entry = some pair.2 := by
  unfold readPair
  cases hkey : readKey keys entry <;>
    cases hvalue : readValue values entry <;> simp [Prod.ext_iff]

section

variable (hspells : entry.Spells keys values pair)
include hspells

theorem readKey_of_spells (hkeys : keys.ReadsBack) :
    readKey keys entry = some pair.1 := by
  rw [readKey, hspells.key_eq, hkeys]

theorem readValue_of_spells (hvalues : values.ReadsBack) :
    readValue values entry = some pair.2 := by
  rw [readValue, hspells.value_eq, Option.bind_some, hvalues]

theorem readPair_of_spells (hkeys : keys.ReadsBack)
    (hvalues : values.ReadsBack) :
    readPair keys values entry = some pair :=
  readPair_eq_some_iff.mpr
    ⟨readKey_of_spells hspells hkeys, readValue_of_spells hspells hvalues⟩

end

/-! ## The lists -/

/-- What the lists have whatever the codecs read. -/
structure ListsReadable (map : TypedMap keys values) : Prop where
  toList_yields :
    map.table.slots.Yields
      (fun entry pair =>
        keys.decode entry.key = some pair.1 ∧
          ∃ bytes, entry.value = some bytes ∧
            values.decode bytes = some pair.2)
      map.toList
  keyList_yields :
    map.table.slots.Yields
      (fun entry key => keys.decode entry.key = some key) map.keyList
  valueList_yields :
    map.table.slots.Yields
      (fun entry value =>
        ∃ bytes, entry.value = some bytes ∧ values.decode bytes = some value)
      map.valueList

/-- What the lists have if everything can be read. -/
structure ListsAll (map : TypedMap keys values) : Prop where
  nodup : map.toList.Nodup
  mem_iff :
    ∀ key value, (key, value) ∈ map.toList ↔
      map.get key = .ok (some value)
  keyList_eq : map.keyList = map.toList.map Prod.fst
  valueList_eq : map.valueList = map.toList.map Prod.snd
  length_toList : map.toList.length = map.length
  length_keyList : map.keyList.length = map.length
  length_valueList : map.valueList.length = map.length

namespace Typed

variable (htyped : map.Typed)
include htyped

theorem listsReadable : map.ListsReadable := by
  have hentries := htyped.good.entries_eq
  constructor
  · rw [toList, hentries]
    apply Slots.yields_filterMap
    intro entry pair
    rw [readPair_eq_some_iff, readKey_eq_some_iff, readValue_eq_some_iff]
  · rw [keyList, hentries]
    exact Slots.yields_filterMap fun _ _ => readKey_eq_some_iff
  · rw [valueList, hentries]
    exact Slots.yields_filterMap fun _ _ => readValue_eq_some_iff

variable (hwritten : map.encodings.WrittenBy keys values)
include hwritten

theorem exists_spells (hentry : entry ∈ map.table.slots.entries) :
    ∃ pair, entry.Spells keys values pair := by
  obtain ⟨index, hslot⟩ := Slots.mem_entries.mp hentry
  have hlookup : map.encodings.lookup entry.key = some entry.valueBytes :=
    htyped.good.lookup_contents hslot
  obtain ⟨⟨key, hkey⟩, ⟨value, hvalue⟩⟩ := hwritten _ _ hlookup
  refine ⟨(key, value), hkey.symm, ?_⟩
  cases hstored : entry.value with
  | none =>
      rw [Entry.valueBytes, hstored, Option.getD_none] at hvalue
      have hne := Codec.encode_ne_nil htyped.suits.valueStride_pos value
      exact absurd hvalue hne
  | some bytes =>
      rw [Entry.valueBytes, hstored, Option.getD_some] at hvalue
      rw [hvalue]

variable (hkeys : keys.ReadsBack) (hvalues : values.ReadsBack)
include hkeys hvalues

/-- What is read of each entry is a part of the pair that it is listed as. -/
theorem map_toList {Item : Type} {part : Key × Value → Item}
    {read : Entry → Option Item}
    (hread : ∀ entry pair, entry.Spells keys values pair →
      read entry = some (part pair)) :
    map.toList.map part = map.table.slots.entries.filterMap read := by
  rw [toList, htyped.good.entries_eq, List.map_filterMap]
  apply List.filterMap_congr
  intro entry hentry
  obtain ⟨pair, hspells⟩ := htyped.exists_spells hwritten hentry
  rw [readPair_of_spells hspells hkeys hvalues, Option.map_some,
    hread entry pair hspells]

theorem map_encode_toList :
    (map.toList.map fun pair => keys.encode pair.1) =
      map.table.slots.entries.map Entry.key := by
  have hencoded :
      (map.toList.map fun pair => keys.encode pair.1) =
        map.table.slots.entries.filterMap (some ∘ Entry.key) := by
    apply htyped.map_toList hwritten hkeys hvalues
    intro entry pair hspells
    exact congrArg some hspells.key_eq
  rwa [List.filterMap_eq_map] at hencoded

theorem mem_toList_iff (key : Key) (value : Value) :
    (key, value) ∈ map.toList ↔ map.get key = .ok (some value) := by
  have hgood := htyped.good
  rw [toList, hgood.entries_eq, List.mem_filterMap, htyped.get_eq,
    Except.ok.injEq]
  change _ ↔ (map.table.contents.lookup (keys.encode key)).bind
    values.decode = some value
  rw [Option.bind_eq_some_iff]
  constructor
  · rintro ⟨entry, hentry, hread⟩
    obtain ⟨pair, hspells⟩ := htyped.exists_spells hwritten hentry
    rw [readPair_of_spells hspells hkeys hvalues,
      Option.some.injEq] at hread
    subst hread
    obtain ⟨index, hslot⟩ := Slots.mem_entries.mp hentry
    have hlookup := hgood.lookup_contents hslot
    rw [hspells.key_eq, hspells.valueBytes_eq] at hlookup
    exact ⟨values.encode value, hlookup, hvalues value⟩
  · rintro ⟨bytes, hlookup, hdecode⟩
    obtain ⟨index, entry, hslot, hkey, rfl⟩ :=
      hgood.lookup_eq_some_iff.mp hlookup
    have hentry : entry ∈ map.table.slots.entries :=
      Slots.mem_entries.mpr ⟨index, hslot⟩
    obtain ⟨pair, hspells⟩ := htyped.exists_spells hwritten hentry
    refine ⟨entry, hentry, ?_⟩
    rw [hspells.key_eq] at hkey
    rw [hspells.valueBytes_eq, hvalues, Option.some.injEq] at hdecode
    rw [readPair_of_spells hspells hkeys hvalues, ← hdecode,
      ← hkeys.injective hkey]

theorem listsAll : map.ListsAll := by
  have hgood := htyped.good
  have hencoded := htyped.map_encode_toList hwritten hkeys hvalues
  have hkeyList : map.keyList = map.toList.map Prod.fst := by
    rw [keyList, hgood.entries_eq]
    symm
    apply htyped.map_toList hwritten hkeys hvalues
    intro entry pair hspells
    exact readKey_of_spells hspells hkeys
  have hvalueList : map.valueList = map.toList.map Prod.snd := by
    rw [valueList, hgood.entries_eq]
    symm
    apply htyped.map_toList hwritten hkeys hvalues
    intro entry pair hspells
    exact readValue_of_spells hspells hvalues
  have hlength : map.toList.length = map.length := by
    have hlengths := congrArg List.length hencoded
    rw [List.length_map, List.length_map, hgood.length_entries] at hlengths
    exact hlengths
  constructor
  · apply List.Nodup.of_map fun pair => keys.encode pair.1
    rw [hencoded]
    exact hgood.sound.nodup_keys
  · exact htyped.mem_toList_iff hwritten hkeys hvalues
  · exact hkeyList
  · exact hvalueList
  · exact hlength
  · rw [hkeyList, List.length_map, hlength]
  · rw [hvalueList, List.length_map, hlength]

end Typed

/-- A map that calls were made on lists what it holds. -/
theorem lists_entries {limit room : Nat}
    (hcreate : create limit room = .ok map)
    (requests : List (Request Key Value)) :
    let last := map.run requests
    last.ListsReadable ∧
      (∀ entry ∈ last.table.slots.entries,
        ∃ pair, entry.Spells keys values pair) ∧
      (keys.ReadsBack → values.ReadsBack → last.ListsAll) := by
  obtain ⟨htyped, hempty⟩ := typed_create hcreate
  have hlast := htyped.run requests
  have hfollows := htyped.follows requests
  rw [hempty] at hfollows
  have hwritten := hfollows.writtenBy Contents.writtenBy_empty
  exact ⟨hlast.listsReadable, fun _ => hlast.exists_spells hwritten,
    hlast.listsAll hwritten⟩

open Codec (octet)

/-- A replaced value, a removed key, a refused insertion and a growth. -/
def reshuffling : List (Request UInt8 UInt8) :=
  [⟨8, .insert 3 4⟩, ⟨8, .insert 11 7⟩, ⟨8, .insert 5 6⟩,
    ⟨8, .insert 3 9⟩, ⟨8, .erase 11⟩, ⟨8, .reserve 5⟩, ⟨16, .reserve 5⟩,
    ⟨16, .insert 19 8⟩]

theorem lists_entries_reshuffling :
    let map : TypedMap octet evenOctet := ⟨⟨Slots.blank 8, 0, 0, 1, 1⟩⟩
    let plain : TypedMap octet octet := ⟨⟨Slots.blank 8, 0, 0, 1, 1⟩⟩
    create 8 0 = .ok map ∧ create 8 0 = .ok plain ∧
      (map.run reshuffling).toList = [(5, 6), (19, 8)] ∧
      (map.run reshuffling).keyList = [5, 3, 19] ∧
      (map.run reshuffling).valueList = [6, 8] ∧
      (plain.run reshuffling).toList = [(5, 6), (3, 9), (19, 8)] ∧
      (map.run reshuffling).ListsReadable ∧
      (plain.run reshuffling).ListsAll := by
  have hcreate : create 8 0 =
      .ok (⟨⟨Slots.blank 8, 0, 0, 1, 1⟩⟩ : TypedMap octet evenOctet) := rfl
  have hplain : create 8 0 =
      .ok (⟨⟨Slots.blank 8, 0, 0, 1, 1⟩⟩ : TypedMap octet octet) := rfl
  have hreads := Codec.readsBack_octet
  have hlists := lists_entries hcreate reshuffling
  have hall := lists_entries hplain reshuffling
  exact ⟨hcreate, hplain, by decide +kernel, by decide +kernel,
    by decide +kernel, by decide +kernel, hlists.1,
    hall.2.2 hreads hreads⟩

end TypedMap

end LinearProbing
