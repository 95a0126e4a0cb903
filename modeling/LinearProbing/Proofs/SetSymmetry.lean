import LinearProbing.Proofs.TypedSetSessions

/-!
# Symmetry of set equality

The two directions of a comparison read different encodings, and what cannot
be read is passed by.  So two sets of one size may be equal one way and not
the other: both ways agree if and only if either set reads into the other
when the other reads into it.

Whether that is so for all sets depends on the codec alone, and few codecs
have it.  Sets of one or two members already tell: either no encoding can be
read, or reading pairs the encodings off, or there are only two encodings, of
which one cannot be read and the other reads as that one.
-/

namespace LinearProbing

namespace Codec

variable {α : Type} {codec : Codec α} {left right : Finset Bytes}

/-- Nothing that the codec writes can be read. -/
def Declines (codec : Codec α) : Prop :=
  ∀ value, codec.reread (codec.encode value) = none

/-- Reading pairs the encodings off, each perhaps with itself. -/
def PairsOff (codec : Codec α) : Prop :=
  ∀ value, ∃ other,
    codec.reread (codec.encode value) = some (codec.encode other) ∧
      codec.reread (codec.encode other) = some (codec.encode value)

/-- There are two encodings.  One cannot be read, and the other is read as
that one. -/
structure Folds (codec : Codec α) (hidden shown : α) : Prop where
  distinct : codec.encode hidden ≠ codec.encode shown
  either :
    ∀ value, codec.encode value = codec.encode hidden ∨
      codec.encode value = codec.encode shown
  unread : codec.reread (codec.encode hidden) = none
  misread :
    codec.reread (codec.encode shown) = some (codec.encode hidden)

def Impartial (codec : Codec α) : Prop :=
  codec.Declines ∨ codec.PairsOff ∨
    ∃ hidden shown, codec.Folds hidden shown

/-! ## Impartial codecs compare both ways alike -/

theorem Declines.readsInto (hdeclines : codec.Declines)
    (hright : codec.Writes right) : codec.ReadsInto right left := by
  intro bytes hbytes again hagain
  obtain ⟨value, rfl⟩ := hright bytes hbytes
  rw [hdeclines] at hagain
  exact absurd hagain nofun

theorem PairsOff.reread_again (hpairs : codec.PairsOff)
    (hleft : codec.Writes left) {bytes : Bytes} (hbytes : bytes ∈ left) :
    ∃ again, codec.reread bytes = some again ∧
      codec.reread again = some bytes := by
  obtain ⟨value, rfl⟩ := hleft bytes hbytes
  obtain ⟨other, hvalue, hother⟩ := hpairs value
  exact ⟨codec.encode other, hvalue, hother⟩

/-- Reading is injective on the left, so it fills a right set of that size. -/
theorem PairsOff.readsInto (hpairs : codec.PairsOff)
    (hleft : codec.Writes left) (hcard : left.card = right.card)
    (hinto : codec.ReadsInto left right) : codec.ReadsInto right left := by
  let partner := fun bytes => (codec.reread bytes).getD bytes
  have hpartner : ∀ bytes ∈ left,
      codec.reread bytes = some (partner bytes) ∧
        codec.reread (partner bytes) = some bytes := by
    intro bytes hbytes
    obtain ⟨again, hagain, hback⟩ := hpairs.reread_again hleft hbytes
    have heq : partner bytes = again := by
      simp only [partner, hagain, Option.getD_some]
    exact ⟨heq ▸ hagain, heq ▸ hback⟩
  have hinjective : Set.InjOn partner left := by
    intro first hfirst second hsecond heq
    have hback := (hpartner first hfirst).2
    rw [heq, (hpartner second hsecond).2] at hback
    exact (Option.some.inj hback).symm
  have hsubset : left.image partner ⊆ right := by
    intro bytes hbytes
    obtain ⟨origin, horigin, rfl⟩ := Finset.mem_image.mp hbytes
    exact hinto origin horigin _ (hpartner origin horigin).1
  have himage : left.image partner = right := by
    apply Finset.eq_of_subset_of_card_le hsubset
    rw [Finset.card_image_of_injOn hinjective, hcard]
  intro bytes hbytes again hagain
  rw [← himage] at hbytes
  obtain ⟨origin, horigin, rfl⟩ := Finset.mem_image.mp hbytes
  rw [(hpartner origin horigin).2, Option.some.injEq] at hagain
  exact hagain ▸ horigin

theorem Folds.readsInto {hidden shown : α}
    (hfolds : codec.Folds hidden shown) (hleft : codec.Writes left)
    (hright : codec.Writes right) (hcard : left.card = right.card)
    (hinto : codec.ReadsInto left right) : codec.ReadsInto right left := by
  intro bytes hbytes again hagain
  obtain ⟨value, rfl⟩ := hright bytes hbytes
  rcases hfolds.either value with hvalue | hvalue
  · rw [hvalue, hfolds.unread] at hagain
    exact absurd hagain nofun
  · rw [hvalue, hfolds.misread, Option.some.injEq] at hagain
    rw [hvalue] at hbytes
    subst hagain
    by_contra hmissing
    have honly : left ⊆ {codec.encode shown} := by
      intro other hother
      obtain ⟨origin, rfl⟩ := hleft other hother
      rcases hfolds.either origin with horigin | horigin
      · exact absurd (horigin ▸ hother) hmissing
      · exact Finset.mem_singleton.mpr horigin
    have hleast : left.card ≤ 1 := by
      simpa using Finset.card_le_card honly
    have hnonempty : left.Nonempty :=
      Finset.card_pos.mp (hcard ▸ Finset.card_pos.mpr ⟨_, hbytes⟩)
    obtain ⟨other, hother⟩ := hnonempty
    have hshown := Finset.mem_singleton.mp (honly hother) ▸ hother
    have hhidden := hinto _ hshown _ hfolds.misread
    have hmost : 1 < right.card :=
      Finset.one_lt_card.mpr ⟨_, hhidden, _, hbytes, hfolds.distinct⟩
    omega

theorem Impartial.readsInto (himpartial : codec.Impartial)
    (hleft : codec.Writes left) (hright : codec.Writes right)
    (hcard : left.card = right.card) (hinto : codec.ReadsInto left right) :
    codec.ReadsInto right left := by
  rcases himpartial with hdeclines | hpairs | ⟨hidden, shown, hfolds⟩
  · exact hdeclines.readsInto hright
  · exact hpairs.readsInto hleft hcard hinto
  · exact hfolds.readsInto hleft hright hcard hinto

/-! ## Sets of at most two members tell -/

theorem writes_singleton (value : α) :
    codec.Writes {codec.encode value} := by
  intro bytes hbytes
  exact ⟨value, (Finset.mem_singleton.mp hbytes).symm⟩

theorem writes_pair (first second : α) :
    codec.Writes {codec.encode first, codec.encode second} := by
  intro bytes hbytes
  rcases Finset.mem_insert.mp hbytes with rfl | hlater
  · exact ⟨first, rfl⟩
  · exact writes_singleton second bytes hlater

/-- Small sets of encodings that have one size read into each other both ways
or not at all. -/
def Balanced (codec : Codec α) : Prop :=
  ∀ left right : Finset Bytes, codec.Writes left → codec.Writes right →
    left.card = right.card → right.card ≤ 2 →
      codec.ReadsInto left right → codec.ReadsInto right left

theorem readsInto_singleton_iff {first second : Bytes} :
    codec.ReadsInto {first} {second} ↔
      ∀ again, codec.reread first = some again → again = second := by
  simp [ReadsInto]

theorem readsInto_pair_iff {first second : Bytes} :
    codec.ReadsInto {first, second} right ↔
      (∀ again, codec.reread first = some again → again ∈ right) ∧
        ∀ again, codec.reread second = some again → again ∈ right := by
  simp [ReadsInto]

theorem Balanced.singleton (hbalanced : codec.Balanced) (first second : α)
    (hinto : ∀ again, codec.reread (codec.encode first) = some again →
      again = codec.encode second) {again : Bytes}
    (hagain : codec.reread (codec.encode second) = some again) :
    again = codec.encode first := by
  have hback := hbalanced {codec.encode first} {codec.encode second}
    (writes_singleton first) (writes_singleton second) rfl (by simp)
    (readsInto_singleton_iff.mpr hinto)
  exact readsInto_singleton_iff.mp hback again hagain

/-- If everything can be read, a set of one member shows its partner. -/
theorem Balanced.pairsOff (hbalanced : codec.Balanced)
    (hreads : ∀ value, codec.reread (codec.encode value) ≠ none) :
    codec.PairsOff := by
  have hsome : ∀ value, ∃ other,
      codec.reread (codec.encode value) = some (codec.encode other) := by
    intro value
    obtain ⟨again, hagain⟩ := Option.ne_none_iff_exists'.mp (hreads value)
    obtain ⟨other, -, rfl⟩ := Option.map_eq_some_iff.mp hagain
    exact ⟨other, hagain⟩
  intro value
  obtain ⟨other, hother⟩ := hsome value
  obtain ⟨back, hback⟩ := hsome other
  have heq : codec.encode back = codec.encode value := by
    apply hbalanced.singleton value other _ hback
    intro again hagain
    rw [hother, Option.some.injEq] at hagain
    exact hagain.symm
  exact ⟨other, hother, heq ▸ hback⟩

/-- If two encodings read as a third one, that one is not read into them,
although they are read into it and the second. -/
theorem Balanced.eq_of_misread (hbalanced : codec.Balanced)
    {hidden first second : α}
    (hhidden : codec.reread (codec.encode hidden) = none)
    (hfirst :
      codec.reread (codec.encode first) = some (codec.encode hidden))
    (hsecond :
      codec.reread (codec.encode second) = some (codec.encode hidden)) :
    codec.encode second = codec.encode first := by
  have hne : ∀ {value : α},
      codec.reread (codec.encode value) = some (codec.encode hidden) →
        codec.encode hidden ≠ codec.encode value := by
    intro value hvalue heq
    rw [← heq, hhidden] at hvalue
    exact absurd hvalue nofun
  by_contra hdistinct
  have hcard : ({codec.encode first, codec.encode second} : Finset _).card =
      ({codec.encode hidden, codec.encode second} : Finset _).card := by
    rw [Finset.card_pair (Ne.symm hdistinct), Finset.card_pair (hne hsecond)]
  have hinto : codec.ReadsInto {codec.encode first, codec.encode second}
      {codec.encode hidden, codec.encode second} := by
    rw [readsInto_pair_iff, hfirst, hsecond]
    simp
  have hback := hbalanced _ _ (writes_pair first second)
    (writes_pair hidden second) hcard Finset.card_le_two hinto
  have hmem := (readsInto_pair_iff.mp hback).2 _ hsecond
  rcases Finset.mem_insert.mp hmem with heq | hlater
  · exact hne hfirst heq
  · exact hne hsecond (Finset.mem_singleton.mp hlater)

/-- A member that cannot be read equals every other one, so all of these read
as it.  Hence there is one of either kind. -/
theorem Balanced.folds (hbalanced : codec.Balanced) {hidden shown : α}
    (hhidden : codec.reread (codec.encode hidden) = none)
    (hshown : codec.reread (codec.encode shown) ≠ none) :
    codec.Folds hidden shown := by
  have hmisread : ∀ {unread value : α},
      codec.reread (codec.encode unread) = none →
        codec.reread (codec.encode value) ≠ none →
          codec.reread (codec.encode value) =
            some (codec.encode unread) := by
    intro unread value hunread hvalue
    obtain ⟨again, hagain⟩ := Option.ne_none_iff_exists'.mp hvalue
    have heq : again = codec.encode unread := by
      apply hbalanced.singleton unread value _ hagain
      rw [hunread]
      exact nofun
    exact heq ▸ hagain
  have hfolded := hmisread hhidden hshown
  refine ⟨?_, ?_, hhidden, hfolded⟩
  · intro heq
    exact hshown (heq ▸ hhidden)
  · intro value
    by_cases hvalue : codec.reread (codec.encode value) = none
    · have hother := hmisread hvalue hshown
      rw [hfolded, Option.some.injEq] at hother
      exact Or.inl hother.symm
    · exact Or.inr
        (hbalanced.eq_of_misread hhidden hfolded (hmisread hhidden hvalue))

theorem Balanced.impartial (hbalanced : codec.Balanced) :
    codec.Impartial := by
  by_cases hreads : ∀ value, codec.reread (codec.encode value) ≠ none
  · exact Or.inr (Or.inl (hbalanced.pairsOff hreads))
  · push Not at hreads
    obtain ⟨hidden, hhidden⟩ := hreads
    by_cases hdeclines : codec.Declines
    · exact Or.inl hdeclines
    · obtain ⟨shown, hshown⟩ := not_forall.mp hdeclines
      exact Or.inr
        (Or.inr ⟨hidden, shown, hbalanced.folds hhidden hshown⟩)

end Codec

namespace TypedSet

variable {Member : Type} {members : Codec Member}

/-! ## Every small set is reachable -/

/-- Up to six members fit into the eight slots of a new set. -/
theorem exists_encodings_eq (hwidth : 0 < members.width)
    {encodings : Finset Bytes} (hwrites : members.Writes encodings)
    (hcard : encodings.card ≤ 6) :
    ∃ set : TypedSet members, set.Reachable ∧ set.encodings = encodings ∧
      set.table.capacity = 8 ∧ set.table.used ≤ encodings.card := by
  induction encodings using Finset.induction_on with
  | empty =>
      have hcreate : create 8 0 =
          .ok (⟨⟨Slots.blank 8, 0, 0, members.width, 1⟩⟩ :
            TypedSet members) := by
        unfold create Table.create
        rw [if_neg (by omega)]
        rfl
      exact ⟨_, .create hcreate, (typed_create hcreate).2, rfl, le_rfl⟩
  | insert bytes encodings hfresh ih =>
      rw [Finset.card_insert_of_notMem hfresh] at hcard ⊢
      obtain ⟨member, rfl⟩ := hwrites _ (Finset.mem_insert_self _ _)
      obtain ⟨set, hreach, hencodings, hcapacity, hused⟩ :=
        ih (fun other hother => hwrites other (Finset.mem_insert_of_mem hother))
          (by omega)
      have hroom : Capacity.Admits set.table.capacity
          (set.table.used + 1) := by
        unfold Capacity.Admits
        omega
      obtain ⟨hnext, hsame, hmore⟩ :=
        hreach.typed.insert_of_room hroom 8 member
      rw [hencodings] at hnext
      exact ⟨_, hreach.insert 8 member, hnext, hsame.trans hcapacity,
        by omega⟩

theorem Typed.equals_comm_iff {left right : TypedSet members}
    (hleft : left.Typed) (hright : right.Typed) :
    left.equals right = right.equals left ↔
      (left.encodings.card = right.encodings.card →
        (members.ReadsInto left.encodings right.encodings ↔
          members.ReadsInto right.encodings left.encodings)) := by
  rw [Bool.eq_iff_iff, hleft.equals_iff hright, hright.equals_iff hleft,
    eq_comm (a := right.encodings.card)]
  exact and_congr_right_iff

/-- Two sets compare alike both ways exactly if each reads into the other
when the other reads into it, and all sets of a codec do so exactly if the
codec is impartial. -/
theorem equals_symmetric_iff (hwidth : 0 < members.width) :
    (∀ left right : ReachableSet members,
      left.val.equals right.val = right.val.equals left.val ↔
        (left.val.encodings.card = right.val.encodings.card →
          (members.ReadsInto left.val.encodings right.val.encodings ↔
            members.ReadsInto right.val.encodings left.val.encodings))) ∧
      ((∀ left right : ReachableSet members,
        left.val.equals right.val = right.val.equals left.val) ↔
          members.Impartial) := by
  have hpair := fun left right : ReachableSet members =>
    left.2.typed.equals_comm_iff right.2.typed
  refine ⟨hpair, ?_, ?_⟩
  · intro hsymmetric
    apply Codec.Balanced.impartial
    intro first second hfirst hsecond hcard hsmall hinto
    obtain ⟨left, hleft, rfl, -⟩ :=
      exists_encodings_eq hwidth hfirst (by omega)
    obtain ⟨right, hright, rfl, -⟩ :=
      exists_encodings_eq hwidth hsecond (by omega)
    have hsame := (hpair ⟨left, hleft⟩ ⟨right, hright⟩).mp (hsymmetric _ _)
    exact (hsame hcard).mp hinto
  · intro himpartial left right
    have hleft := left.2.typed.covered
    have hright := right.2.typed.covered
    rw [hpair left right]
    intro hcard
    constructor
    · exact himpartial.readsInto hleft hright hcard
    · exact himpartial.readsInto hright hleft hcard.symm

open Codec (octet)

theorem equals_symmetric_iff_octet :
    0 < octet.width ∧ octet.Impartial ∧
      ∀ left right : ReachableSet octet,
        left.val.equals right.val = right.val.equals left.val := by
  have hwidth : 0 < octet.width := by decide
  have hreads := Codec.readsBack_octet
  have himpartial : octet.Impartial := by
    right
    left
    intro n
    exact ⟨n, hreads.reread_eq n, hreads.reread_eq n⟩
  exact ⟨hwidth, himpartial, (equals_symmetric_iff hwidth).2.mpr himpartial⟩

/-- Writes every number of two bytes and reads only the even ones. -/
def evenShort : Codec UInt16 :=
  ((Codec.unsigned 2).along UInt16.toFin UInt16.ofFin).restrict fun n =>
    n % 2 == 0

def emptyShorts : TypedSet evenShort :=
  ⟨⟨Slots.blank 8, 0, 0, 2, 1⟩⟩

/-- The set of 1 has no member that can be read, so it equals the set of 2,
which does not equal it. -/
theorem equals_not_symmetric_evenShort :
    let one := (emptyShorts.insert 8 1).state
    let two := (emptyShorts.insert 8 2).state
    0 < evenShort.width ∧ one.Reachable ∧ two.Reachable ∧
      one.equals two = true ∧ two.equals one = false := by
  have hempty : emptyShorts.Reachable := @Reachable.create _ _ 8 0 _ rfl
  exact ⟨by decide, hempty.insert 8 1, hempty.insert 8 2, by decide +kernel,
    by decide +kernel⟩

end TypedSet

end LinearProbing
