import LinearProbing.Proofs.TypedSetSessions

/-!
# A typed set refines a finite set

What the calls of a typed set are answered is a matter of the finite set of
the encodings alone (`TypedSet.Answers`).  Only an insertion can be refused,
and only of something new for which there is no memory; nothing has changed
then.

The members are written as keys with the empty value, and the empty value is
stored as none.  Listing a set reads the keys back.  If the codec reads back
what it writes, no key is passed over and no two keys read alike, so every
member is listed once.
-/

namespace LinearProbing

variable {Member : Type}

namespace Contents

variable {contents : Contents}

/-- Every value is the empty one. -/
def Bare (contents : Contents) : Prop :=
  ∀ key value, contents.lookup key = some value → value = []

theorem bare_of_keys (hkeys : contents.keys = ∅) : contents.Bare := by
  intro key value hlookup
  have hmem := Finmap.mem_keys.mpr (Finmap.mem_of_lookup_eq_some hlookup)
  rw [hkeys] at hmem
  exact absurd hmem (Finset.notMem_empty key)

theorem Bare.insert (hbare : contents.Bare) (key : Bytes) :
    Bare (contents.insert key []) := by
  intro other value hlookup
  rcases lookup_of_insert hlookup with hnew | hold
  · exact hnew
  · exact hbare other value hold

theorem Bare.erase (hbare : contents.Bare) (key : Bytes) :
    Bare (contents.erase key) := by
  intro other value hlookup
  exact hbare other value (lookup_of_erase hlookup)

end Contents

theorem Table.Consistent.value_eq_none {table : Table}
    (hgood : table.Consistent) (hbare : table.contents.Bare) {entry : Entry}
    (hentry : entry ∈ table.slots.entries) : entry.value = none := by
  obtain ⟨index, hslot⟩ := Slots.mem_entries.mp hentry
  have hempty := hbare _ _ (hgood.lookup_contents hslot)
  cases hvalue : entry.value with
  | none => rfl
  | some bytes =>
      have hstored := (hgood.fits entry hentry).value_fits bytes hvalue
      rw [Entry.valueBytes, hvalue] at hempty
      exact absurd hempty hstored.1

namespace TypedSet

/-! ## Calls and their answers -/

inductive Call (Member : Type)
  | insert (member : Member)
  | contains (member : Member)
  | erase (member : Member)
  | clear

inductive Reply
  | inserted (isNew : Bool)
  | contained (isPresent : Bool)
  | erased (wasPresent : Bool)
  | done
deriving DecidableEq

structure Request (Member : Type) where
  limit : Nat
  call : Call Member

variable {members : Codec Member} {set : TypedSet members} {limit : Nat}

def perform (set : TypedSet members) (request : Request Member) :
    Outcome (TypedSet members) Reply :=
  match request.call with
  | .insert member => (set.insert request.limit member).map .inserted
  | .contains member => .done set (.contained (set.contains member))
  | .erase member => (set.erase member).map .erased
  | .clear => .done set.clear .done

def run (set : TypedSet members) (requests : List (Request Member)) :
    TypedSet members :=
  requests.foldl (fun set request => (set.perform request).state) set

def results (set : TypedSet members) :
    List (Request Member) → List (Except Fault Reply)
  | [] => []
  | request :: requests =>
      let outcome := set.perform request
      outcome.result :: outcome.state.results requests

/-- What a finite set of encodings answers to a call, and what it becomes. -/
inductive Answers (members : Codec Member) (limit : Nat)
    (encodings : Finset Bytes) :
    Call Member → Except Fault Reply → Finset Bytes → Prop
  | insert {member : Member} :
      Answers members limit encodings (.insert member)
        (.ok (.inserted (decide (members.encode member ∉ encodings))))
        (Insert.insert (members.encode member) encodings)
  | starved {member : Member} {fault : Fault}
      (habsent : members.encode member ∉ encodings)
      (hfault : fault.Starves limit) :
      Answers members limit encodings (.insert member) (.error fault)
        encodings
  | contains {member : Member} :
      Answers members limit encodings (.contains member)
        (.ok (.contained (decide (members.encode member ∈ encodings))))
        encodings
  | erase {member : Member} :
      Answers members limit encodings (.erase member)
        (.ok (.erased (decide (members.encode member ∈ encodings))))
        (encodings.erase (members.encode member))
  | clear : Answers members limit encodings .clear (.ok .done) ∅

inductive Follows (members : Codec Member) :
    Finset Bytes → List (Request Member) → List (Except Fault Reply) →
      Finset Bytes → Prop
  | nil (encodings : Finset Bytes) : Follows members encodings [] [] encodings
  | cons {encodings next last : Finset Bytes} {request : Request Member}
      {requests : List (Request Member)} {result : Except Fault Reply}
      {results : List (Except Fault Reply)}
      (hfirst : Answers members request.limit encodings request.call result
        next)
      (hlater : Follows members next requests results last) :
      Follows members encodings (request :: requests) (result :: results)
        last

/-! ## Each call -/

namespace Typed

variable (htyped : set.Typed)
include htyped

theorem answers (request : Request Member) :
    Answers members request.limit set.encodings request.call
      (set.perform request).result
      (set.perform request).state.encodings := by
  rcases request with ⟨limit, call⟩
  cases call with
  | insert member =>
      change Answers members limit set.encodings _
        ((set.insert limit member).result.map .inserted)
        (set.insert limit member).state.encodings
      rcases htyped.insert_cases limit member with
        ⟨hresult, hnext⟩ | ⟨fault, hresult, hstarves, habsent, hnext⟩
      · rw [hresult, hnext, htyped.contains_eq, ← decide_not]
        exact .insert
      · rw [htyped.contains_eq, decide_eq_false_iff_not] at habsent
        rw [hresult, hnext]
        exact .starved habsent hstarves
  | contains member =>
      simp only [perform, htyped.contains_eq]
      exact .contains
  | erase member =>
      obtain ⟨hresult, hnext⟩ := htyped.erase_eq member
      change Answers members limit set.encodings _
        ((set.erase member).result.map .erased)
        (set.erase member).state.encodings
      rw [hresult, hnext, htyped.contains_eq]
      exact .erase
  | clear =>
      simp only [perform, Outcome.done, encodings_clear]
      exact .clear

theorem perform (request : Request Member) :
    (set.perform request).state.Typed := by
  rcases request with ⟨limit, call⟩
  cases call with
  | insert member => exact htyped.insert limit member
  | contains member => exact htyped
  | erase member => exact htyped.erase member
  | clear => exact htyped.clear

theorem atomic_perform (request : Request Member) :
    (set.perform request).Atomic set := by
  have hgood := htyped.suits.good
  rcases request with ⟨limit, call⟩
  cases call with
  | insert member =>
      have hcase := hgood.writeCase limit (htyped.aligned_view member)
        (View.aligned_plain [])
      exact ((hcase.atomic.map _).mapState TypedSet.mk).map _
  | contains member => exact Outcome.atomic_done _ _ _
  | erase member =>
      have hcase := hgood.eraseCase (members.view member)
      exact ((hcase.atomic.mapState TypedSet.mk).map _).map _
  | clear => exact Outcome.atomic_done _ _ _

theorem bare_perform (hbare : set.table.contents.Bare)
    (request : Request Member) :
    (set.perform request).state.table.contents.Bare := by
  have hgood := htyped.suits.good
  rcases request with ⟨limit, call⟩
  cases call with
  | insert member =>
      change (set.table.write limit (members.view member)
        (.plain [])).state.contents.Bare
      rcases hgood.write_cases (htyped.aligned_view member)
          (View.aligned_plain []) (htyped.isKey member)
          htyped.suits.valueStride_eq.symm limit with
        ⟨-, hnext⟩ | ⟨fault, -, -, -, hnext⟩
      · rw [hnext]
        exact hbare.insert (members.encode member)
      · rwa [hnext]
  | contains member => exact hbare
  | erase member =>
      change (set.table.erase (members.view member)).state.contents.Bare
      rw [(hgood.erase_eq_lookup (htyped.aligned_view member)
        (htyped.isKey member)).2]
      exact hbare.erase (members.encode member)
  | clear => exact Contents.bare_of_keys (encodings_clear set)

/-! ## Listing the members -/

theorem map_encode_toList (hreads : members.ReadsBack) :
    set.toList.map members.encode =
      set.table.slots.entries.map Entry.key := by
  unfold toList
  rw [htyped.suits.good.entries_eq, List.map_filterMap,
    ← List.filterMap_eq_map]
  apply List.filterMap_congr
  intro entry hentry
  have hstored : entry.key ∈ set.encodings :=
    Finmap.mem_keys.mpr (Table.mem_contents.mpr
      (List.mem_map_of_mem hentry))
  obtain ⟨member, hmember⟩ := htyped.covered entry.key hstored
  rw [← hmember, hreads, Option.map_some, Function.comp_apply, hmember]

theorem nodup_toList (hreads : members.ReadsBack) : set.toList.Nodup := by
  apply List.Nodup.of_map members.encode
  rw [htyped.map_encode_toList hreads]
  exact htyped.suits.good.sound.nodup_keys

theorem mem_toList_iff (hreads : members.ReadsBack) (member : Member) :
    member ∈ set.toList ↔ members.encode member ∈ set.encodings := by
  rw [← List.mem_map_of_injective hreads.injective,
    htyped.map_encode_toList hreads, encodings, Finmap.mem_keys,
    Table.mem_contents]

/-! ## A session -/

theorem run (hbare : set.table.contents.Bare)
    (requests : List (Request Member)) :
    (set.run requests).Typed ∧
      (set.run requests).table.contents.Bare := by
  induction requests generalizing set with
  | nil => exact ⟨htyped, hbare⟩
  | cons request requests ih =>
      exact ih (htyped.perform request) (htyped.bare_perform hbare request)

theorem follows (requests : List (Request Member)) :
    Follows members set.encodings requests (set.results requests)
      (set.run requests).encodings := by
  induction requests generalizing set with
  | nil => exact .nil set.encodings
  | cons request requests ih =>
      exact .cons (htyped.answers request) (ih (htyped.perform request))

end Typed

/-- The set holds the encodings of its members and nothing else. -/
structure Represents (set : TypedSet members) (encodings : Finset Bytes) :
    Prop where
  length_eq : set.length = encodings.card
  contains_eq :
    ∀ member, set.contains member = decide (members.encode member ∈ encodings)
  stored :
    (set.table.slots.entries.map Entry.key).Nodup ∧
      ∀ bytes, bytes ∈ encodings ↔
        ∃ entry ∈ set.table.slots.entries, entry.key = bytes
  valueless : ∀ entry ∈ set.table.slots.entries, entry.value = none
  written : ∀ bytes ∈ encodings, ∃ member, members.encode member = bytes
  listed :
    members.ReadsBack →
      set.toList.Nodup ∧
        ∀ member,
          member ∈ set.toList ↔ members.encode member ∈ encodings

theorem Typed.represents (htyped : set.Typed)
    (hbare : set.table.contents.Bare) : set.Represents set.encodings := by
  have hgood := htyped.suits.good
  constructor
  · exact htyped.length_eq
  · exact htyped.contains_eq
  · refine ⟨hgood.sound.nodup_keys, ?_⟩
    intro bytes
    rw [encodings, Finmap.mem_keys, Table.mem_contents, List.mem_map]
  · intro entry hentry
    exact hgood.value_eq_none hbare hentry
  · exact htyped.covered
  · intro hreads
    exact ⟨htyped.nodup_toList hreads, htyped.mem_toList_iff hreads⟩

/-- A session on a created set is one on a finite set of encodings. -/
theorem simulates_finset {room : Nat} (hcreate : create limit room = .ok set)
    (requests : List (Request Member)) :
    let last := set.run requests
    Follows members ∅ requests (set.results requests) last.encodings ∧
      last.Represents last.encodings ∧
      (∀ request, (last.perform request).Atomic last) ∧
      (∀ limit member, (last.insert limit member).fault? =
        if last.contains member then none
        else last.table.growthRefusal? limit) ∧
      ∀ member, View.withStride (members.encode member) members.width =
        .ok (members.view member) := by
  obtain ⟨htyped, hempty⟩ := typed_create hcreate
  have hbare : set.table.contents.Bare := Contents.bare_of_keys hempty
  have hfollows := htyped.follows requests
  rw [hempty] at hfollows
  obtain ⟨hlast, hlastBare⟩ := htyped.run hbare requests
  exact ⟨hfollows, hlast.represents hlastBare, hlast.atomic_perform,
    hlast.fault?_insert, Codec.withStride_encode htyped.suits.keyStride_pos⟩

open Codec (octet)

/-- Six members come, one of them twice.  Another one finds no room, nor
after an erasure that leaves a tombstone, but after one that leaves none. -/
def jostling : List (Request UInt8) :=
  [⟨8, .insert 0⟩, ⟨8, .insert 8⟩, ⟨8, .insert 16⟩, ⟨8, .insert 8⟩,
    ⟨8, .insert 7⟩, ⟨8, .insert 1⟩, ⟨8, .insert 2⟩, ⟨8, .insert 200⟩,
    ⟨8, .erase 8⟩, ⟨8, .insert 200⟩, ⟨8, .erase 16⟩, ⟨8, .erase 16⟩,
    ⟨8, .insert 200⟩, ⟨8, .contains 16⟩]

theorem simulates_finset_jostling :
    let set : TypedSet octet := ⟨⟨Slots.blank 8, 0, 0, 1, 1⟩⟩
    let last := set.run jostling
    create 8 0 = .ok set ∧
      set.results jostling =
        [.ok (.inserted true), .ok (.inserted true), .ok (.inserted true),
          .ok (.inserted false), .ok (.inserted true), .ok (.inserted true),
          .ok (.inserted true), .error (.allocation 16),
          .ok (.erased true), .error (.allocation 16), .ok (.erased true),
          .ok (.erased false), .ok (.inserted true),
          .ok (.contained false)] ∧
      last.toList = [200, 1, 2, 7, 0] ∧ last.toList.Nodup ∧
      Follows octet ∅ jostling (set.results jostling) last.encodings ∧
      last.Represents last.encodings := by
  intro set last
  have hcreate : create 8 0 = .ok set := rfl
  obtain ⟨hfollows, hrepresents, -⟩ := simulates_finset hcreate jostling
  have hlisted := hrepresents.listed Codec.readsBack_octet
  exact ⟨hcreate, by decide +kernel, by decide +kernel, hlisted.1, hfollows,
    hrepresents⟩

end TypedSet

end LinearProbing
