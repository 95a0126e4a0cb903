import LinearProbing.Proofs.Contents
import LinearProbing.Proofs.Session

/-!
# A table refines a finite map

The contents alone say what every call must answer and what the contents are
afterwards (`Contents.Answers`).  Only two kinds of calls may be refused, and
both leave the contents as they were: calls with views that a table of these
strides does not accept, and calls that need more slots than can be had.  A
cursor and a drain may take the entries in any order, so their answers are
not determined but only bound to the contents.

Each request to a well-formed table is answered in this way
(`WellFormed.answers`), hence so is every session on a created table.
-/

namespace LinearProbing

def View.IsKey (keyStride : Nat) (view : View) : Prop :=
  view.bytes ≠ [] ∧ view.stride = keyStride

instance (keyStride : Nat) (view : View) :
    Decidable (view.IsKey keyStride) :=
  inferInstanceAs (Decidable (_ ∧ _))

def Call.Accepted (keyStride valueStride : Nat) : Call → Prop
  | .write key value | .insert key value =>
      key.val.IsKey keyStride ∧ value.val.stride = valueStride
  | .get key | .erase key => key.val.IsKey keyStride
  | .contains _ | .reserve _ | .clear | .list _ | .drain _ _ => True

/-- More slots were needed than `limit`, or than a machine word can count. -/
def Fault.Starves (limit : Nat) : Fault → Prop
  | .allocation slots => limit < slots
  | .capacityOverflow => True
  | .emptyKey | .zeroStride | .misaligned _ _ | .strideMismatch _ _ |
    .probeExhausted _ => False

/-- The calls that may need a larger slot array. -/
def Call.Grows (contents : Contents) : Call → Prop
  | .write key _ | .insert key _ => key.val.bytes ∉ contents
  | .reserve _ => True
  | .get _ | .erase _ | .contains _ | .clear | .list _ | .drain _ _ => False

namespace Contents

/-- What a write of a key answers. -/
def written (contents : Contents) (key : Bytes) : Written :=
  match contents.lookup key with
  | none => .added
  | some previous => .replaced (kept previous)

/-- Entries that were taken out of the contents one by one. -/
structure Yields (contents : Contents) (steps : Nat)
    (entries : List Entry) : Prop where
  length_eq : entries.length = min steps contents.keys.card
  distinct : (entries.map Entry.key).Nodup
  faithful :
    ∀ entry ∈ entries, ∃ value,
      contents.lookup entry.key = some value ∧
        entry = .ofBytes entry.key value

inductive Answers (keyStride valueStride limit : Nat)
    (contents : Contents) :
    Call → Except Fault Reply → Contents → Prop
  | rejected {call : Call} {fault : Fault}
      (haccept : ¬ call.Accepted keyStride valueStride) :
      Answers keyStride valueStride limit contents call (.error fault) contents
  | starved {call : Call} {fault : Fault}
      (haccept : call.Accepted keyStride valueStride)
      (hgrows : call.Grows contents) (hfault : fault.Starves limit) :
      Answers keyStride valueStride limit contents call (.error fault) contents
  | write {key value : AlignedView}
      (haccept : (Call.write key value).Accepted keyStride valueStride) :
      Answers keyStride valueStride limit contents (.write key value)
        (.ok (.written (contents.written key.val.bytes)))
        (contents.insert key.val.bytes value.val.bytes)
  | insert {key value : AlignedView}
      (haccept : (Call.insert key value).Accepted keyStride valueStride) :
      Answers keyStride valueStride limit contents (.insert key value)
        (.ok (.inserted (decide (key.val.bytes ∉ contents))))
        (contents.insert key.val.bytes value.val.bytes)
  | get {key : AlignedView}
      (haccept : (Call.get key).Accepted keyStride valueStride) :
      Answers keyStride valueStride limit contents (.get key)
        (.ok (.found ((contents.lookup key.val.bytes).map fun value =>
          ⟨value, valueStride⟩)))
        contents
  | contains {key : AlignedView} :
      Answers keyStride valueStride limit contents (.contains key)
        (.ok (.contained
          (decide (key.val.IsKey keyStride ∧ key.val.bytes ∈ contents))))
        contents
  | erase {key : AlignedView}
      (haccept : (Call.erase key).Accepted keyStride valueStride) :
      Answers keyStride valueStride limit contents (.erase key)
        (.ok (.erased ((contents.lookup key.val.bytes).map
          (Entry.ofBytes key.val.bytes))))
        (contents.erase key.val.bytes)
  | reserve {extra : Nat} :
      Answers keyStride valueStride limit contents (.reserve extra) (.ok .done)
        contents
  | clear :
      Answers keyStride valueStride limit contents .clear (.ok .done) ∅
  | list {steps : Nat} {entries : List Entry}
      (hyields : contents.Yields steps entries) :
      Answers keyStride valueStride limit contents (.list steps)
        (.ok (.listed entries)) contents
  | finish {steps : Nat} {entries : List Entry}
      (hyields : contents.Yields steps entries) :
      Answers keyStride valueStride limit contents (.drain steps false)
        (.ok (.listed entries)) ∅
  | abandon {steps : Nat} {entries : List Entry}
      (hyields : contents.Yields steps entries) :
      Answers keyStride valueStride limit contents (.drain steps true)
        (.ok (.listed entries))
        (contents.without (entries.map Entry.key))

variable {keyStride valueStride limit : Nat} {contents next : Contents}
  {key value : AlignedView}

theorem Answers.write_of {written : Written}
    (haccept : (Call.write key value).Accepted keyStride valueStride)
    (hwritten : contents.written key.val.bytes = written)
    (hnext : next = contents.insert key.val.bytes value.val.bytes) :
    Answers keyStride valueStride limit contents (.write key value)
      (.ok (.written written)) next := by
  subst hwritten hnext
  exact .write haccept

theorem Answers.insert_of {isNew : Bool}
    (haccept : (Call.insert key value).Accepted keyStride valueStride)
    (hnew : decide (key.val.bytes ∉ contents) = isNew)
    (hnext : next = contents.insert key.val.bytes value.val.bytes) :
    Answers keyStride valueStride limit contents (.insert key value)
      (.ok (.inserted isNew)) next := by
  subst hnew hnext
  exact .insert haccept

theorem Answers.get_of {found : Option View}
    (haccept : key.val.IsKey keyStride)
    (hfound : (contents.lookup key.val.bytes).map
      (fun value => ⟨value, valueStride⟩) = found) :
    Answers keyStride valueStride limit contents (.get key) (.ok (.found found))
      contents := by
  subst hfound
  exact .get haccept

theorem Answers.erase_of {erased : Option Entry}
    (haccept : key.val.IsKey keyStride)
    (herased : (contents.lookup key.val.bytes).map
      (Entry.ofBytes key.val.bytes) = erased)
    (hnext : next = contents.erase key.val.bytes) :
    Answers keyStride valueStride limit contents (.erase key)
      (.ok (.erased erased)) next := by
  subst herased hnext
  exact .erase haccept

/-- A session on the contents alone. -/
inductive Follows (keyStride valueStride : Nat) :
    Contents → List Request → List (Except Fault Reply) → Contents → Prop
  | nil (contents : Contents) :
      Follows keyStride valueStride contents [] [] contents
  | cons {contents next last : Contents} {request : Request}
      {requests : List Request} {result : Except Fault Reply}
      {results : List (Except Fault Reply)}
      (hfirst : Answers keyStride valueStride request.limit contents
        request.call result
        next)
      (hlater : Follows keyStride valueStride next requests results last) :
      Follows keyStride valueStride contents (request :: requests)
        (result :: results) last

end Contents

namespace Table

variable {table : Table} {key value : View} {index limit : Nat}
  {entry : Entry}

theorem keyFault?_eq_none_iff_isKey :
    table.keyFault? key = none ↔ key.IsKey table.keyStride :=
  keyFault?_eq_none_iff

theorem pairFault?_eq_none_iff_isKey :
    table.pairFault? key value = none ↔
      key.IsKey table.keyStride ∧ value.stride = table.valueStride := by
  rw [pairFault?_eq_none_iff, keyFault?_eq_none_iff_isKey]

theorem Consistent.kept_valueBytes (hgood : table.Consistent)
    (hslot : table.slots.get index = .occupied entry) :
    Contents.kept entry.valueBytes = entry.value := by
  have hfits := hgood.fits entry (Slots.mem_entries.mpr ⟨index, hslot⟩)
  exact (congrArg Entry.value hfits.eq_ofBytes).symm

theorem Consistent.written_found (hgood : table.Consistent)
    (hslot : table.slots.get index = .occupied entry) :
    table.contents.written entry.key = .replaced entry.value := by
  unfold Contents.written
  rw [hgood.lookup_contents hslot]
  dsimp only
  rw [hgood.kept_valueBytes hslot]

theorem written_missing
    (habsent : key.bytes ∉ table.slots.entries.map Entry.key) :
    table.contents.written key.bytes = .added := by
  unfold Contents.written
  rw [Finmap.lookup_eq_none.mpr (mt mem_contents.mp habsent)]

/-- The first entries of the slot order are what a walk may yield. -/
theorem Consistent.yields_take (hgood : table.Consistent) (steps : Nat) :
    table.contents.Yields steps (table.slots.entries.take steps) where
  length_eq := by
    rw [hgood.card_contents, List.length_take, hgood.length_entries]
  distinct := by
    rw [List.map_take]
    exact hgood.sound.nodup_keys.sublist (List.take_sublist _ _)
  faithful := by
    intro entry hentry
    have hmem := List.mem_of_mem_take hentry
    exact ⟨entry.valueBytes,
      Contents.lookup_ofEntries hgood.sound.nodup_keys hmem,
      (hgood.fits entry hmem).eq_ofBytes⟩

/-! ## One request -/

/-- The two ways to write a key differ only in how they report it. -/
structure Wrote (limit : Nat) (table : Table) (key value : AlignedView)
    (outcome : Outcome Table Written) : Prop where
  write :
    Contents.Answers table.keyStride table.valueStride limit table.contents
      (.write key value) (outcome.result.map .written)
      outcome.state.contents
  insert :
    Contents.Answers table.keyStride table.valueStride limit table.contents
      (.insert key value)
      ((outcome.result.map Written.isNew).map .inserted)
      outcome.state.contents

theorem wrote_added {key value : AlignedView} {grown : Table}
    {rehash : Option Rehash}
    (haccept : table.pairFault? key.val value.val = none)
    (habsent : key.val.bytes ∉ table.slots.entries.map Entry.key)
    (hcontents : grown.contents =
      table.contents.insert key.val.bytes value.val.bytes) :
    Wrote limit table key value ⟨.ok .added, grown, rehash⟩ := by
  rw [pairFault?_eq_none_iff_isKey] at haccept
  constructor
  · exact .write_of haccept (written_missing habsent) hcontents
  · apply Contents.Answers.insert_of haccept _ hcontents
    exact decide_eq_true (mt mem_contents.mp habsent)

theorem Consistent.wrote_replaced (hgood : table.Consistent)
    {key value : AlignedView} {updated : Table}
    (haccept : table.pairFault? key.val value.val = none)
    (hslot : table.slots.get index = .occupied entry)
    (hkey : entry.key = key.val.bytes)
    (hcontents : updated.contents =
      table.contents.insert entry.key value.val.bytes) :
    Wrote limit table key value (.done updated (.replaced entry.value)) := by
  rw [pairFault?_eq_none_iff_isKey] at haccept
  have hwritten := hgood.written_found hslot
  have hpresent : entry.key ∈ table.contents :=
    Finmap.mem_of_lookup_eq_some (hgood.lookup_contents hslot)
  rw [hkey] at hwritten hpresent hcontents
  constructor
  · exact .write_of haccept hwritten hcontents
  · apply Contents.Answers.insert_of haccept _ hcontents
    exact decide_eq_false (not_not.mpr hpresent)

theorem WriteCase.wrote {key value : AlignedView}
    {outcome : Outcome Table Written}
    (hcase : WriteCase limit table key.val value.val outcome)
    (hgood : table.WellFormed) : Wrote limit table key value outcome := by
  cases hcase with
  | rejected hfault =>
      have hnot : ¬ (Call.write key value).Accepted table.keyStride
          table.valueStride := by
        intro haccept
        rw [pairFault?_eq_none_iff_isKey.mpr haccept] at hfault
        simp at hfault
      exact ⟨.rejected hnot, .rejected hnot⟩
  | replaced haccept hslot hkey =>
      have hvalue := (fits_ofViews key.2 value.2 haccept).value_fits
      exact hgood.wrote_replaced haccept hslot hkey
        (hgood.contents_revalue hslot hvalue)
  | seated haccept habsent hfirst hload =>
      exact wrote_added haccept habsent
        (hgood.contents_seat key.2 value.2 haccept habsent hfirst)
  | overflowed haccept habsent hfull hword =>
      rw [pairFault?_eq_none_iff_isKey] at haccept
      rw [← mem_contents] at habsent
      exact ⟨.starved haccept habsent trivial,
        .starved haccept habsent trivial⟩
  | starved haccept habsent hfull hword hlimit =>
      rw [pairFault?_eq_none_iff_isKey] at haccept
      rw [← mem_contents] at habsent
      exact ⟨.starved haccept habsent hlimit,
        .starved haccept habsent hlimit⟩
  | grown haccept habsent hfirst hfull hword hlimit hgrows =>
      have hseat :=
        hgood.contents_seat key.2 value.2 haccept habsent hfirst
      exact wrote_added haccept habsent (hgrows.contents_eq.trans hseat)

theorem not_isKey_of_fault {fault : Fault}
    (hfault : table.keyFault? key = some fault) :
    ¬ key.IsKey table.keyStride := by
  rw [← keyFault?_eq_none_iff_isKey, hfault]
  simp

theorem LookupCase.get_answers (limit : Nat) {key : AlignedView}
    {found : Except Fault (Option Entry)}
    (hcase : LookupCase table key.val found) (hgood : table.WellFormed) :
    Contents.Answers table.keyStride table.valueStride limit table.contents
      (.get key) ((found.map (Option.map table.valueView)).map .found)
      table.contents := by
  cases hcase with
  | rejected hfault => exact .rejected (not_isKey_of_fault hfault)
  | missing haccept habsent =>
      apply Contents.Answers.get_of (keyFault?_eq_none_iff_isKey.mp haccept)
      rw [Finmap.lookup_eq_none.mpr (mt mem_contents.mp habsent)]
      rfl
  | found haccept hslot hkey =>
      apply Contents.Answers.get_of (keyFault?_eq_none_iff_isKey.mp haccept)
      rw [← hkey, hgood.lookup_contents hslot]
      rfl

theorem LookupCase.contains_eq {found : Except Fault (Option Entry)}
    (hcase : LookupCase table key found) (hgood : table.WellFormed)
    (hentry : table.entry? key = found) :
    table.contains key =
      decide (key.IsKey table.keyStride ∧ key.bytes ∈ table.contents) := by
  unfold contains get
  rw [hentry]
  cases hcase with
  | rejected hfault =>
      have hnot := not_isKey_of_fault hfault
      simp [hnot, Except.map]
  | missing haccept habsent =>
      rw [← mem_contents] at habsent
      simp [habsent, Except.map]
  | found haccept hslot hkey =>
      rw [keyFault?_eq_none_iff_isKey] at haccept
      have hpresent :=
        Finmap.mem_of_lookup_eq_some (hgood.lookup_contents hslot)
      rw [hkey] at hpresent
      simp [haccept, hpresent, Except.map]

theorem Consistent.erased_found (hgood : table.Consistent)
    (hslot : table.slots.get index = .occupied entry) :
    (table.contents.lookup entry.key).map (Entry.ofBytes entry.key) =
      some entry := by
  have hfits := hgood.fits entry (Slots.mem_entries.mpr ⟨index, hslot⟩)
  rw [hgood.lookup_contents hslot, Option.map_some, ← hfits.eq_ofBytes]

theorem EraseCase.answers {key : AlignedView}
    {outcome : Outcome Table (Option Entry)}
    (hcase : EraseCase table key.val outcome) (hgood : table.WellFormed) :
    Contents.Answers table.keyStride table.valueStride limit table.contents
      (.erase key) (outcome.result.map .erased) outcome.state.contents := by
  cases hcase with
  | rejected hfault => exact .rejected (not_isKey_of_fault hfault)
  | missing haccept habsent =>
      rw [← mem_contents] at habsent
      apply Contents.Answers.erase_of
        (keyFault?_eq_none_iff_isKey.mp haccept)
      · rw [Finmap.lookup_eq_none.mpr habsent]
        rfl
      · exact (Contents.erase_of_not_mem habsent).symm
  | vacated haccept hslot hkey hnext =>
      apply Contents.Answers.erase_of
        (keyFault?_eq_none_iff_isKey.mp haccept)
      · rw [← hkey]
        exact hgood.erased_found hslot
      · rw [← hkey]
        exact hgood.contents_vacate hslot
  | buried haccept hslot hkey hnext =>
      apply Contents.Answers.erase_of
        (keyFault?_eq_none_iff_isKey.mp haccept)
      · rw [← hkey]
        exact hgood.erased_found hslot
      · rw [← hkey]
        exact hgood.contents_bury hslot

theorem ReserveCase.answers {extra : Nat}
    {outcome : Outcome Table Unit}
    (hcase : ReserveCase limit table extra outcome) :
    Contents.Answers table.keyStride table.valueStride limit table.contents
      (.reserve extra) (outcome.result.map fun _ => .done)
      outcome.state.contents := by
  cases hcase with
  | ample => exact .reserve
  | overflowed => exact .starved trivial trivial trivial
  | starved hfit hne hlimit => exact .starved trivial trivial hlimit
  | grown hfit hne hlimit hgrows =>
      change Contents.Answers _ _ _ _ _ (.ok .done) _
      rw [hgrows.contents_eq]
      exact .reserve

theorem WellFormed.answers (hgood : table.WellFormed) (request : Request) :
    Contents.Answers table.keyStride table.valueStride request.limit
      table.contents request.call (table.perform request).result
      (table.perform request).state.contents := by
  rcases request with ⟨limit, call⟩
  cases call with
  | write key value =>
      exact ((hgood.writeCase limit key.2 value.2).wrote hgood).write
  | insert key value =>
      exact ((hgood.writeCase limit key.2 value.2).wrote hgood).insert
  | get key =>
      have hget := (hgood.lookupCase key.val).get_answers limit hgood
      change Contents.Answers _ _ _ _ _
        ((Outcome.ofExcept table (table.get key.val)).result.map .found)
        (Outcome.ofExcept table (table.get key.val)).state.contents
      rw [result_ofExcept, state_ofExcept]
      exact hget
  | contains key =>
      have hcontains :=
        (hgood.lookupCase key.val).contains_eq hgood rfl
      change Contents.Answers _ _ _ _ _
        (.ok (.contained (table.contains key.val))) table.contents
      rw [hcontains]
      exact .contains
  | erase key => exact (hgood.eraseCase key.val).answers hgood
  | reserve extra => exact (hgood.reserveCase limit extra).answers
  | clear =>
      change Contents.Answers _ _ _ _ _ (.ok .done) table.clear.contents
      rw [contents_clear]
      exact .clear
  | list steps =>
      have hyields := hgood.yields_take steps
      rw [← hgood.take_cursor] at hyields
      exact .list hyields
  | drain steps abandoned =>
      have hyields := hgood.yields_take steps
      have hdrain :
          (table.drain.take steps).1 = table.slots.entries.take steps :=
        (hgood.drain_onward.take steps).1
      rw [← hdrain] at hyields
      cases abandoned with
      | true =>
          change Contents.Answers _ _ _ _ _
            (.ok (.listed (table.drain.take steps).1))
            (table.drain.take steps).2.abandon.contents
          rw [hgood.contents_abandon]
          exact .abandon hyields
      | false =>
          change Contents.Answers _ _ _ _ _
            (.ok (.listed (table.drain.take steps).1))
            (table.drain.take steps).2.table.clear.contents
          rw [contents_clear]
          exact .finish hyields

/-! ## A session -/

def results (table : Table) (requests : List Request) :
    List (Except Fault Reply) :=
  (table.outcomes requests).map Outcome.result

theorem WellFormed.follows (hgood : table.WellFormed)
    (requests : List Request) :
    Contents.Follows table.keyStride table.valueStride table.contents
      requests (table.results requests) (table.run requests).contents := by
  induction requests generalizing table with
  | nil => exact .nil table.contents
  | cons request requests ih =>
      have hsame := hgood.sameStrides_perform request
      have hlater := ih (hgood.perform request)
      rw [hsame.key_eq, hsame.value_eq] at hlater
      exact .cons (hgood.answers request) hlater

/-- The contents as the whole meaning of a session on a created table: they
start empty, every answer is the one they determine, and at the end they have
as many keys as the table counts, none of them empty. -/
theorem simulates_contents {limit room keyStride valueStride : Nat}
    (hcreate : create limit room keyStride valueStride = .ok table)
    (requests : List Request) :
    let last := table.run requests
    Contents.Follows keyStride valueStride ∅ requests
        (table.results requests) last.contents ∧
      last.count = last.contents.keys.card ∧ [] ∉ last.contents := by
  have hreach := (Reachable.create hcreate).run requests
  have hlast := hreach.wellFormed
  obtain ⟨hgood, capacity, -, -, rfl⟩ := wellFormed_create hcreate
  have hfollows := hgood.follows requests
  have hempty : contents
      ⟨Slots.blank capacity, 0, 0, keyStride, valueStride⟩ = ∅ := by
    simp [contents]
  rw [hempty] at hfollows
  exact ⟨hfollows, hlast.card_contents.symm, hlast.nil_not_mem_contents⟩

/-- A value gives way to the empty one, a key without bytes and a reservation
without memory are refused, and a drain is abandoned after one entry. -/
def interrupted : List Request :=
  [⟨8, .insert (.plain [0]) (.plain [7])⟩,
    ⟨8, .write (.plain [0]) (.plain [])⟩,
    ⟨8, .write (.plain [8]) (.plain [5])⟩,
    ⟨8, .insert (.plain []) (.plain [5])⟩,
    ⟨8, .reserve 7⟩,
    ⟨8, .drain 1 true⟩,
    ⟨8, .get (.plain [0])⟩,
    ⟨8, .contains (.plain [8])⟩]

theorem simulates_contents_interrupted :
    let start : Table := ⟨Slots.blank 8, 0, 0, 1, 1⟩
    let last := start.run interrupted
    create 8 0 1 1 = .ok start ∧
      start.results interrupted =
        [.ok (.inserted true), .ok (.written (.replaced (some [7]))),
          .ok (.written .added), .error .emptyKey,
          .error (.allocation 16), .ok (.listed [.ofBytes [8] [5]]),
          .ok (.found (some ⟨[], 1⟩)), .ok (.contained false)] ∧
      Contents.Follows 1 1 ∅ interrupted (start.results interrupted)
        last.contents ∧
      last.count = last.contents.keys.card ∧ [] ∉ last.contents := by
  have hcreate : create 8 0 1 1 = .ok ⟨Slots.blank 8, 0, 0, 1, 1⟩ := rfl
  exact ⟨hcreate, by decide +kernel,
    simulates_contents hcreate interrupted⟩

end Table

end LinearProbing
