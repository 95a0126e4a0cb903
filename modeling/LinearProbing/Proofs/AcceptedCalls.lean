import LinearProbing.Proofs.Refinement
import LinearProbing.Proofs.Refusals

/-!
# Calls that a table accepts

With views of the right strides, and a key that is not empty, the only fault
left is the want of memory.  The answer of each call and the contents after
it are then plain terms of the contents before it.
-/

namespace LinearProbing

namespace Contents

variable {keyStride valueStride limit : Nat} {contents next : Contents}
  {key value : AlignedView}

theorem kept_of_ne_nil {bytes : Bytes} (hne : bytes ≠ []) :
    kept bytes = some bytes :=
  if_neg hne

theorem isNew_written (contents : Contents) (key : Bytes) :
    (contents.written key).isNew = decide (key ∉ contents) := by
  unfold written
  cases hlookup : contents.lookup key with
  | none => exact (decide_eq_true (Finmap.lookup_eq_none.mp hlookup)).symm
  | some value =>
      have hmem := Finmap.mem_of_lookup_eq_some hlookup
      exact (decide_eq_false (not_not.mpr hmem)).symm

theorem Answers.write_cases
    (haccept : (Call.write key value).Accepted keyStride valueStride)
    {result : Except Fault Written}
    (hanswers : Answers keyStride valueStride limit contents
      (.write key value) (result.map .written) next) :
    (result = .ok (contents.written key.val.bytes) ∧
        next = contents.insert key.val.bytes value.val.bytes) ∨
      ∃ fault, result = .error fault ∧ fault.Starves limit ∧
        key.val.bytes ∉ contents ∧ next = contents := by
  generalize hreply : result.map Reply.written = reply at hanswers
  cases hanswers with
  | rejected hreject => exact absurd haccept hreject
  | starved haccept hgrows hfault =>
      cases result with
      | ok written => simp [Except.map] at hreply
      | error fault =>
          rw [Except.map, Except.error.injEq] at hreply
          exact Or.inr ⟨fault, rfl, hreply ▸ hfault, hgrows, rfl⟩
  | write haccept =>
      cases result with
      | error fault => simp [Except.map] at hreply
      | ok written =>
          rw [Except.map, Except.ok.injEq, Reply.written.injEq] at hreply
          exact Or.inl ⟨by rw [hreply], rfl⟩

theorem Answers.erase_eq
    (haccept : key.val.IsKey keyStride)
    {result : Except Fault (Option Entry)}
    (hanswers : Answers keyStride valueStride limit contents
      (.erase key) (result.map .erased) next) :
    result = .ok ((contents.lookup key.val.bytes).map
        (Entry.ofBytes key.val.bytes)) ∧
      next = contents.erase key.val.bytes := by
  generalize hreply : result.map Reply.erased = reply at hanswers
  cases hanswers with
  | rejected hreject => exact absurd haccept hreject
  | starved haccept hgrows hfault => exact hgrows.elim
  | erase haccept =>
      cases result with
      | error fault => simp [Except.map] at hreply
      | ok erased =>
          rw [Except.map, Except.ok.injEq, Reply.erased.injEq] at hreply
          exact ⟨by rw [hreply], rfl⟩

end Contents

namespace Table

variable {table : Table} {limit : Nat} {key value : View}

theorem WellFormed.get_eq_lookup (hgood : table.WellFormed)
    (hkey : key.IsKey table.keyStride) :
    table.get key =
      .ok ((table.contents.lookup key.bytes).map fun value =>
        ⟨value, table.valueStride⟩) := by
  have hcase := hgood.lookupCase key
  unfold get
  generalize table.entry? key = found at hcase
  cases hcase with
  | rejected hfault => exact absurd hkey (not_isKey_of_fault hfault)
  | missing haccept habsent =>
      rw [Finmap.lookup_eq_none.mpr (mt mem_contents.mp habsent)]
      rfl
  | found haccept hslot hsame =>
      rw [← hsame, hgood.lookup_contents hslot]
      rfl

theorem WellFormed.contains_eq_mem (hgood : table.WellFormed)
    (hkey : key.IsKey table.keyStride) :
    table.contains key = decide (key.bytes ∈ table.contents) := by
  rw [(hgood.lookupCase key).contains_eq hgood rfl]
  simp [hkey]

theorem WellFormed.write_cases (hgood : table.WellFormed)
    (hkey : key.Aligned) (hvalue : value.Aligned)
    (haccept : key.IsKey table.keyStride)
    (hstride : value.stride = table.valueStride) (limit : Nat) :
    ((table.write limit key value).result =
          .ok (table.contents.written key.bytes) ∧
        (table.write limit key value).state.contents =
          table.contents.insert key.bytes value.bytes) ∨
      ∃ fault, (table.write limit key value).result = .error fault ∧
        fault.Starves limit ∧ key.bytes ∉ table.contents ∧
        (table.write limit key value).state.contents = table.contents :=
  (hgood.answers ⟨limit, .write ⟨key, hkey⟩ ⟨value, hvalue⟩⟩).write_cases
    ⟨haccept, hstride⟩

/-- A new key is refused exactly when the table has to grow and cannot. -/
theorem WellFormed.fault?_write (hgood : table.WellFormed)
    (hkey : key.Aligned) (hvalue : value.Aligned)
    (haccept : key.IsKey table.keyStride)
    (hstride : value.stride = table.valueStride) (limit : Nat) :
    (table.write limit key value).fault? =
      if table.contains key then none else table.growthRefusal? limit := by
  have hcase := hgood.writeCase limit hkey hvalue
  have hpresent : table.contains key = true ↔
      key.bytes ∈ table.slots.entries.map Entry.key := by
    rw [hgood.contains_eq_mem haccept, ← mem_contents]
    exact decide_eq_true_iff
  rw [hcase.fault?_eq, writeRefusal?_of_accepted
    (pairFault?_eq_none_iff_isKey.mpr ⟨haccept, hstride⟩)]
  exact (if_congr hpresent rfl rfl).symm

theorem WellFormed.erase_eq_lookup (hgood : table.WellFormed)
    (hkey : key.Aligned) (haccept : key.IsKey table.keyStride) :
    (table.erase key).result =
        .ok ((table.contents.lookup key.bytes).map
          (Entry.ofBytes key.bytes)) ∧
      (table.erase key).state.contents = table.contents.erase key.bytes :=
  (hgood.answers ⟨0, .erase ⟨key, hkey⟩⟩).erase_eq haccept

theorem ReserveCase.contents_cases {extra : Nat}
    {outcome : Outcome Table Unit}
    (hcase : ReserveCase limit table extra outcome) :
    outcome.state.contents = table.contents ∧
      (outcome.result = .ok () ∨
        ∃ fault, outcome.result = .error fault ∧ fault.Starves limit) := by
  cases hcase with
  | ample => exact ⟨rfl, Or.inl rfl⟩
  | overflowed => exact ⟨rfl, Or.inr ⟨_, rfl, trivial⟩⟩
  | starved hfit hne hlimit => exact ⟨rfl, Or.inr ⟨_, rfl, hlimit⟩⟩
  | grown hfit hne hlimit hgrows =>
      exact ⟨hgrows.contents_eq, Or.inl rfl⟩

/-- With room for one more entry, an accepted write succeeds in place. -/
theorem WriteCase.of_room {outcome : Outcome Table Written}
    (hcase : WriteCase limit table key value outcome)
    (haccept : table.pairFault? key value = none)
    (hroom : Capacity.Admits table.capacity (table.used + 1)) :
    outcome.fault? = none ∧ outcome.state.capacity = table.capacity ∧
      outcome.state.used ≤ table.used + 1 := by
  cases hcase with
  | rejected hfault =>
      rw [haccept] at hfault
      exact absurd hfault nofun
  | replaced => exact ⟨rfl, capacity_revalue _, Nat.le_succ _⟩
  | seated => exact ⟨rfl, capacity_seat _, (used_seat _).le⟩
  | overflowed _ _ hfull => exact absurd hroom hfull
  | starved _ _ hfull => exact absurd hroom hfull
  | grown _ _ _ hfull => exact absurd hroom hfull

/-! ## Tables of given strides -/

structure Suits (keyStride valueStride : Nat) (table : Table) : Prop where
  good : table.WellFormed
  keyStride_eq : table.keyStride = keyStride
  valueStride_eq : table.valueStride = valueStride

theorem suits_create {limit room keyStride valueStride : Nat}
    (hcreate : create limit room keyStride valueStride = .ok table) :
    table.Suits keyStride valueStride ∧ table.contents = ∅ := by
  obtain ⟨hgood, capacity, -, -, rfl⟩ := wellFormed_create hcreate
  exact ⟨⟨hgood, rfl, rfl⟩, by simp [contents]⟩

namespace Suits

variable {keyStride valueStride : Nat}
  (hsuits : table.Suits keyStride valueStride)
include hsuits

theorem keyStride_pos : 0 < keyStride :=
  hsuits.keyStride_eq ▸ hsuits.good.keyStride_pos

theorem valueStride_pos : 0 < valueStride :=
  hsuits.valueStride_eq ▸ hsuits.good.valueStride_pos

theorem of_sameStrides {next : Table} (hgood : next.WellFormed)
    (hsame : table.SameStrides next) : next.Suits keyStride valueStride where
  good := hgood
  keyStride_eq := hsame.key_eq.trans hsuits.keyStride_eq
  valueStride_eq := hsame.value_eq.trans hsuits.valueStride_eq

theorem write (hkey : key.Aligned) (hvalue : value.Aligned) (limit : Nat) :
    (table.write limit key value).state.Suits keyStride valueStride := by
  have hcase := hsuits.good.writeCase limit hkey hvalue
  exact hsuits.of_sameStrides (hcase.wellFormed hsuits.good hkey hvalue)
    hcase.sameStrides

theorem erase (key : View) :
    (table.erase key).state.Suits keyStride valueStride := by
  have hcase := hsuits.good.eraseCase key
  exact hsuits.of_sameStrides (hcase.wellFormed hsuits.good)
    hcase.sameStrides

theorem reserve (limit extra : Nat) :
    (table.reserve limit extra).state.Suits keyStride valueStride := by
  have hcase := hsuits.good.reserveCase limit extra
  exact hsuits.of_sameStrides (hcase.wellFormed hsuits.good)
    hcase.sameStrides

theorem clear : table.clear.Suits keyStride valueStride :=
  hsuits.of_sameStrides hsuits.good.clear ⟨rfl, rfl⟩

end Suits

end Table

end LinearProbing
