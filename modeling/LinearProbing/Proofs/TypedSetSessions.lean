import LinearProbing.Proofs.AcceptedCalls
import LinearProbing.Proofs.CodecLaws
import LinearProbing.TypedSet

/-!
# Sessions on a typed set

A typed set stands for the finite set of the encodings that its table holds.
Every call adds one encoding, takes one away or leaves the set as it is, so
each of them encodes some member.

Whether one set equals another is a question about these two finite sets
(`Typed.equals_iff`): do they have the same size, and is everything in the
right one that the encodings of the left one read as?
-/

namespace LinearProbing

variable {Member : Type}

theorem Contents.keys_insert (contents : Contents) (key value : Bytes) :
    (contents.insert key value).keys = insert key contents.keys := by
  ext other
  rw [Finmap.mem_keys, Finmap.mem_insert, Finset.mem_insert,
    Finmap.mem_keys]

namespace TypedSet

variable {members : Codec Member} {set left right : TypedSet members}
  {limit : Nat} {member : Member}

def encodings (set : TypedSet members) : Finset Bytes :=
  set.table.contents.keys

inductive Reachable : TypedSet members → Prop
  | create {limit room : Nat} {set : TypedSet members}
      (hcreate : TypedSet.create limit room = .ok set) : Reachable set
  | insert {set : TypedSet members} (hreach : Reachable set) (limit : Nat)
      (member : Member) : Reachable (set.insert limit member).state
  | erase {set : TypedSet members} (hreach : Reachable set)
      (member : Member) : Reachable (set.erase member).state
  | clear {set : TypedSet members} (hreach : Reachable set) :
      Reachable set.clear

abbrev ReachableSet (members : Codec Member) :=
  { set : TypedSet members // set.Reachable }

/-- The table is one that only members were written to. -/
structure Typed (set : TypedSet members) : Prop where
  suits : set.table.Suits members.width 1
  covered : members.Writes set.encodings

theorem typed_create {room : Nat} (hcreate : create limit room = .ok set) :
    set.Typed ∧ set.encodings = ∅ := by
  unfold create at hcreate
  cases htable : Table.create limit room members.width 1 with
  | error fault => simp [htable, Except.map] at hcreate
  | ok table =>
      rw [htable, Except.map, Except.ok.injEq] at hcreate
      subst hcreate
      obtain ⟨hsuits, hempty⟩ := Table.suits_create htable
      have hnone : encodings (⟨table⟩ : TypedSet members) = ∅ := by
        rw [encodings, hempty, Finmap.keys_empty]
      refine ⟨⟨hsuits, ?_⟩, hnone⟩
      intro bytes hbytes
      rw [hnone] at hbytes
      exact absurd hbytes (Finset.notMem_empty bytes)

theorem encodings_clear (set : TypedSet members) :
    set.clear.encodings = ∅ :=
  congrArg Finmap.keys (Table.contents_clear set.table)

namespace Typed

variable (htyped : set.Typed)
include htyped

theorem isKey (member : Member) :
    (members.view member).IsKey set.table.keyStride :=
  htyped.suits.keyStride_eq ▸
    Codec.isKey_view htyped.suits.keyStride_pos member

theorem length_eq : set.length = set.encodings.card :=
  htyped.suits.good.card_contents.symm

theorem contains_eq (member : Member) :
    set.contains member = decide (members.encode member ∈ set.encodings) := by
  have hcontains := htyped.suits.good.contains_eq_mem (htyped.isKey member)
  refine hcontains.trans (decide_eq_decide.mpr ?_)
  exact Finmap.mem_keys.symm

theorem aligned_view (member : Member) : (members.view member).Aligned :=
  Codec.aligned_view htyped.suits.keyStride_pos member

theorem insert_cases (limit : Nat) (member : Member) :
    let outcome := set.insert limit member
    (outcome.result = .ok (!set.contains member) ∧
        outcome.state.encodings =
          Insert.insert (members.encode member) set.encodings) ∨
      ∃ fault, outcome.result = .error fault ∧ fault.Starves limit ∧
        set.contains member = false ∧
        outcome.state.encodings = set.encodings := by
  have hpresent : set.contains member =
      decide (members.encode member ∈ set.table.contents) :=
    htyped.suits.good.contains_eq_mem (htyped.isKey member)
  have hresult : (set.insert limit member).result =
      (set.table.write limit (members.view member)
        (.plain [])).result.map Written.isNew := rfl
  rcases htyped.suits.good.write_cases (htyped.aligned_view member)
      (View.aligned_plain []) (htyped.isKey member)
      htyped.suits.valueStride_eq.symm limit with
    ⟨hwritten, hnext⟩ | ⟨fault, hrefused, hstarves, habsent, hnext⟩
  · left
    rw [hwritten, Except.map, Contents.isNew_written, decide_not] at hresult
    rw [hpresent]
    exact ⟨hresult,
      (congrArg Finmap.keys hnext).trans (Contents.keys_insert _ _ _)⟩
  · right
    rw [hrefused] at hresult
    rw [hpresent]
    exact ⟨fault, hresult, hstarves, decide_eq_false habsent,
      congrArg Finmap.keys hnext⟩

/-- With room for one more entry, an insertion is not refused. -/
theorem insert_of_room
    (hroom : Capacity.Admits set.table.capacity (set.table.used + 1))
    (limit : Nat) (member : Member) :
    let next := (set.insert limit member).state
    next.encodings =
        Insert.insert (members.encode member) set.encodings ∧
      next.table.capacity = set.table.capacity ∧
        next.table.used ≤ set.table.used + 1 := by
  have haccept :
      set.table.pairFault? (members.view member) (.plain []) = none :=
    Table.pairFault?_eq_none_iff_isKey.mpr
      ⟨htyped.isKey member, htyped.suits.valueStride_eq.symm⟩
  have hcase := htyped.suits.good.writeCase limit
    (htyped.aligned_view member) (View.aligned_plain [])
  obtain ⟨hfault, hcapacity, hused⟩ := hcase.of_room haccept hroom
  refine ⟨?_, hcapacity, hused⟩
  rcases htyped.insert_cases limit member with
    ⟨-, hnext⟩ | ⟨fault, hresult, -⟩
  · exact hnext
  · have hrefused : (set.insert limit member).fault? = none :=
      (Outcome.fault?_map _ _).trans hfault
    rw [Outcome.fault?, hresult] at hrefused
    exact absurd hrefused nofun

theorem fault?_insert (limit : Nat) (member : Member) :
    (set.insert limit member).fault? =
      if set.contains member then none
      else set.table.growthRefusal? limit := by
  have hfault := htyped.suits.good.fault?_write (htyped.aligned_view member)
    (View.aligned_plain []) (htyped.isKey member)
    htyped.suits.valueStride_eq.symm limit
  exact (Outcome.fault?_map _ _).trans hfault

theorem erase_eq (member : Member) :
    (set.erase member).result = .ok (set.contains member) ∧
      (set.erase member).state.encodings =
        set.encodings.erase (members.encode member) := by
  obtain ⟨herased, hnext⟩ := htyped.suits.good.erase_eq_lookup
    (htyped.aligned_view member) (htyped.isKey member)
  constructor
  · have hresult : (set.erase member).result =
        (set.table.erase (members.view member)).result.map Option.isSome :=
      rfl
    have hpresent : set.contains member =
        decide (members.encode member ∈ set.table.contents) :=
      htyped.suits.good.contains_eq_mem (htyped.isKey member)
    rw [hresult, herased, hpresent, Except.map, Option.isSome_map,
      Bool.eq_iff_iff.mpr (Finmap.lookup_isSome.trans decide_eq_true_iff.symm)]
    rfl
  · exact (congrArg Finmap.keys hnext).trans (Finmap.keys_erase _ _)

/-! ## The calls keep the set typed -/

theorem insert (limit : Nat) (member : Member) :
    (set.insert limit member).state.Typed where
  suits :=
    htyped.suits.write (htyped.aligned_view member) (View.aligned_plain [])
      limit
  covered := by
    intro bytes hbytes
    rcases htyped.insert_cases limit member with
      ⟨-, hnext⟩ | ⟨fault, -, -, -, hnext⟩
    · rw [hnext, Finset.mem_insert] at hbytes
      rcases hbytes with rfl | hold
      · exact ⟨member, rfl⟩
      · exact htyped.covered bytes hold
    · exact htyped.covered bytes (hnext ▸ hbytes)

theorem erase (member : Member) : (set.erase member).state.Typed where
  suits := htyped.suits.erase (members.view member)
  covered := by
    intro bytes hbytes
    rw [(htyped.erase_eq member).2] at hbytes
    exact htyped.covered bytes (Finset.mem_of_mem_erase hbytes)

theorem clear : set.clear.Typed where
  suits := htyped.suits.clear
  covered := by
    intro bytes hbytes
    rw [encodings_clear] at hbytes
    exact absurd hbytes (Finset.notMem_empty bytes)

end Typed

theorem Reachable.typed (hreach : Reachable set) : set.Typed := by
  induction hreach with
  | create hcreate => exact (typed_create hcreate).1
  | insert hreach limit member ih => exact ih.insert limit member
  | erase hreach member ih => exact ih.erase member
  | clear hreach ih => exact ih.clear

/-! ## Equality in terms of encodings -/

theorem Typed.mem_toList (htyped : set.Typed) :
    member ∈ set.toList ↔
      ∃ bytes ∈ set.encodings, members.decode bytes = some member := by
  unfold toList encodings
  rw [List.mem_filterMap, htyped.suits.good.entries_eq]
  constructor
  · rintro ⟨entry, hentry, hdecode⟩
    refine ⟨entry.key, ?_, hdecode⟩
    rw [Finmap.mem_keys, Table.mem_contents]
    exact List.mem_map_of_mem hentry
  · rintro ⟨bytes, hbytes, hdecode⟩
    rw [Finmap.mem_keys, Table.mem_contents, List.mem_map] at hbytes
    obtain ⟨entry, hentry, rfl⟩ := hbytes
    exact ⟨entry, hentry, hdecode⟩

theorem Typed.equals_iff (hleft : left.Typed) (hright : right.Typed) :
    left.equals right = true ↔
      left.encodings.card = right.encodings.card ∧
        members.ReadsInto left.encodings right.encodings := by
  unfold equals
  rw [Bool.and_eq_true, beq_iff_eq, hleft.length_eq, hright.length_eq,
    List.all_eq_true, and_congr_right_iff]
  intro _
  constructor
  · intro hall bytes hbytes again hagain
    obtain ⟨member, hdecode, rfl⟩ := Option.map_eq_some_iff.mp hagain
    have hcontains :=
      hall member (hleft.mem_toList.mpr ⟨bytes, hbytes, hdecode⟩)
    rw [hright.contains_eq, decide_eq_true_iff] at hcontains
    exact hcontains
  · intro hinto member hmember
    obtain ⟨bytes, hbytes, hdecode⟩ := hleft.mem_toList.mp hmember
    rw [hright.contains_eq, decide_eq_true_iff]
    exact hinto bytes hbytes _ (congrArg (Option.map members.encode) hdecode)

end TypedSet

end LinearProbing
