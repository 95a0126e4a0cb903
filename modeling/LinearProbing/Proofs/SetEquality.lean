import LinearProbing.Proofs.TypedSetSessions

/-!
# Equality of typed sets

The comparison of two sets looks at their sizes and, in one direction only,
at their members.  If the codec reads back what it writes, every encoding on
the left is read as itself, so the right encodings include the left ones; and
a finite set that includes another one of its own size is the same set.
-/

namespace LinearProbing

variable {Member : Type} {members : Codec Member}

theorem Codec.ReadsBack.readsInto_iff (hreads : members.ReadsBack)
    {left right : Finset Bytes} (hwrites : members.Writes left) :
    members.ReadsInto left right ↔ left ⊆ right := by
  constructor
  · intro hinto bytes hbytes
    obtain ⟨member, rfl⟩ := hwrites bytes hbytes
    exact hinto _ hbytes _ (hreads.reread_eq member)
  · intro hsubset bytes hbytes again hagain
    obtain ⟨member, rfl⟩ := hwrites bytes hbytes
    rw [hreads.reread_eq, Option.some.injEq] at hagain
    exact hagain ▸ hsubset hbytes

namespace TypedSet

variable {set left right : TypedSet members}

theorem Typed.encodings_subset (hleft : left.Typed) (hright : right.Typed)
    (hsame : ∀ member, left.contains member = right.contains member) :
    left.encodings ⊆ right.encodings := by
  intro bytes hbytes
  obtain ⟨member, rfl⟩ := hleft.covered bytes hbytes
  have hcontains := hsame member
  rw [hleft.contains_eq, hright.contains_eq, decide_eq_decide] at hcontains
  exact hcontains.mp hbytes

theorem Typed.encodings_eq_iff (hleft : left.Typed) (hright : right.Typed) :
    left.encodings = right.encodings ↔
      ∀ member, left.contains member = right.contains member := by
  constructor
  · intro heq member
    rw [hleft.contains_eq, hright.contains_eq, heq]
  · intro hsame
    exact (hleft.encodings_subset hright hsame).antisymm
      (hright.encodings_subset hleft fun member => (hsame member).symm)

theorem Typed.equals_iff_encodings_eq (hreads : members.ReadsBack)
    (hleft : left.Typed) (hright : right.Typed) :
    left.equals right = true ↔ left.encodings = right.encodings := by
  rw [hleft.equals_iff hright, hreads.readsInto_iff hleft.covered]
  constructor
  · rintro ⟨hcard, hsubset⟩
    exact Finset.eq_of_subset_of_card_le hsubset hcard.ge
  · intro heq
    rw [heq]
    exact ⟨rfl, Finset.Subset.refl _⟩

/-- What is contained after a call, in terms of what was contained before. -/
structure Tracks (set : TypedSet members) : Prop where
  inserted :
    ∀ limit member isNew, (set.insert limit member).result = .ok isNew →
      isNew = (!set.contains member) ∧
        ∀ other, (set.insert limit member).state.contains other = true ↔
          other = member ∨ set.contains other = true
  refused :
    ∀ limit member fault, (set.insert limit member).result = .error fault →
      ∀ other, (set.insert limit member).state.contains other =
        set.contains other
  erased :
    ∀ member other, (set.erase member).state.contains other = true ↔
      other ≠ member ∧ set.contains other = true
  cleared : ∀ other, set.clear.contains other = false

theorem Typed.tracks (htyped : set.Typed) (hreads : members.ReadsBack) :
    set.Tracks where
  inserted := by
    intro limit member isNew hresult
    rcases htyped.insert_cases limit member with
      ⟨hdone, hnext⟩ | ⟨fault, hrefused, -⟩
    · rw [hdone, Except.ok.injEq] at hresult
      refine ⟨hresult.symm, ?_⟩
      intro other
      rw [(htyped.insert limit member).contains_eq, htyped.contains_eq,
        decide_eq_true_iff, decide_eq_true_iff, hnext, Finset.mem_insert,
        hreads.injective.eq_iff]
    · rw [hrefused] at hresult
      exact absurd hresult nofun
  refused := by
    intro limit member fault hresult other
    rcases htyped.insert_cases limit member with
      ⟨hdone, -⟩ | ⟨fault, -, -, -, hnext⟩
    · rw [hdone] at hresult
      exact absurd hresult nofun
    · rw [(htyped.insert limit member).contains_eq, htyped.contains_eq,
        hnext]
  erased := by
    intro member other
    rw [(htyped.erase member).contains_eq, htyped.contains_eq,
      decide_eq_true_iff, decide_eq_true_iff, (htyped.erase_eq member).2,
      Finset.mem_erase, hreads.injective.ne_iff]
  cleared := by
    intro other
    rw [htyped.clear.contains_eq, encodings_clear]
    exact decide_eq_false (Finset.notMem_empty _)

theorem contains_create {limit room : Nat}
    (hcreate : create limit room = .ok set) (member : Member) :
    set.contains member = false := by
  obtain ⟨htyped, hempty⟩ := typed_create hcreate
  rw [htyped.contains_eq, hempty]
  exact decide_eq_false (Finset.notMem_empty _)

/-- The members of a set follow from the calls that led to it, and equality
of such sets is equality of their members, whatever the calls were. -/
theorem equals_iff_same_members (hreads : members.ReadsBack) :
    (∀ limit room (set : TypedSet members), create limit room = .ok set →
        ∀ member, set.contains member = false) ∧
      (∀ set : ReachableSet members, set.val.Tracks) ∧
      (∀ left right : ReachableSet members,
        left.val.equals right.val = true ↔
          ∀ member,
            left.val.contains member = right.val.contains member) ∧
      Equivalence (fun left right : ReachableSet members =>
        left.val.equals right.val = true) ∧
      ∀ set other third : ReachableSet members,
        (∀ member, set.val.contains member = other.val.contains member) →
          set.val.equals third.val = other.val.equals third.val ∧
            third.val.equals set.val = third.val.equals other.val := by
  have hencodings : ∀ left right : ReachableSet members,
      left.val.equals right.val = true ↔
        left.val.encodings = right.val.encodings := fun left right =>
    left.2.typed.equals_iff_encodings_eq hreads right.2.typed
  refine ⟨fun _ _ _ => contains_create, fun set => set.2.typed.tracks hreads,
    ?_, ⟨?_, ?_, ?_⟩, ?_⟩
  · intro left right
    rw [hencodings, left.2.typed.encodings_eq_iff right.2.typed]
  · intro set
    exact (hencodings set set).mpr rfl
  · intro left right hequal
    exact (hencodings right left).mpr ((hencodings left right).mp hequal).symm
  · intro first second third hfirst hsecond
    exact (hencodings first third).mpr
      (((hencodings first second).mp hfirst).trans
        ((hencodings second third).mp hsecond))
  · intro set other third hsame
    have heq := (set.2.typed.encodings_eq_iff other.2.typed).mpr hsame
    constructor
    · rw [Bool.eq_iff_iff, hencodings, hencodings, heq]
    · rw [Bool.eq_iff_iff, hencodings, hencodings, heq]

open Codec (octet)

def emptyOctets (capacity : Nat) : TypedSet octet :=
  ⟨⟨Slots.blank capacity, 0, 0, 1, 1⟩⟩

/-- Two members in a table of eight slots. -/
def pair : TypedSet octet :=
  (((emptyOctets 8).insert 8 3).state.insert 8 200).state

/-- The same members the other way round in sixteen slots, after another one
has come and gone. -/
def detour : TypedSet octet :=
  let cleared := ((emptyOctets 16).insert 0 7).state.clear
  let started := ((cleared.insert 0 9).state.insert 0 200).state
  ((started.insert 0 3).state.erase 9).state

theorem equals_iff_same_members_detour :
    octet.ReadsBack ∧ pair.Reachable ∧ detour.Reachable ∧
      pair.capacity = 8 ∧ detour.capacity = 16 ∧
      (pair.equals detour = true ↔
        ∀ member, pair.contains member = detour.contains member) ∧
      detour.equals pair = true := by
  have hreads := Codec.readsBack_octet
  have hsmall : (emptyOctets 8).Reachable := @Reachable.create _ _ 8 0 _ rfl
  have hlarge : (emptyOctets 16).Reachable :=
    @Reachable.create _ _ 16 8 _ rfl
  have hpair : pair.Reachable := (hsmall.insert 8 3).insert 8 200
  have hdetour : detour.Reachable :=
    ((((hlarge.insert 0 7).clear.insert 0 9).insert 0 200).insert 0 3).erase 9
  obtain ⟨-, -, hmembers, hequivalence, -⟩ := equals_iff_same_members hreads
  have hequal : pair.equals detour = true := by decide +kernel
  exact ⟨hreads, hpair, hdetour, by decide +kernel, by decide +kernel,
    hmembers ⟨pair, hpair⟩ ⟨detour, hdetour⟩,
    @Equivalence.symm _ _ hequivalence ⟨pair, hpair⟩ ⟨detour, hdetour⟩
      hequal⟩

end TypedSet

end LinearProbing
