import LinearProbing.Proofs.Dictionary
import LinearProbing.Proofs.Refusals

/-!
# Sessions on a typed map

The strides of a typed map are the widths of its codecs, and none of its
values is stored as nothing.  So the views that it makes are accepted by its
table, and a value that was replaced or erased reads as the contents say:
each call is answered as the dictionary of encodings answers it, and a call
that is refused wants for memory and does nothing.

If both codecs read back what they write, the session is one on a finite map
of typed values.
-/

namespace LinearProbing

variable {Key Value : Type}

namespace Contents

variable {contents : Contents} {key value : Bytes}

def Filled (contents : Contents) : Prop :=
  ∀ key, contents.lookup key ≠ some []

theorem filled_empty : Filled ∅ := by
  intro key
  simp

theorem Filled.insert (hfilled : contents.Filled) (hvalue : value ≠ []) :
    Filled (contents.insert key value) := by
  intro other hlookup
  rcases lookup_of_insert hlookup with hnew | hold
  · exact hvalue hnew.symm
  · exact hfilled other hold

theorem Filled.erase (hfilled : contents.Filled) :
    Filled (contents.erase key) := by
  intro other hlookup
  exact hfilled other (lookup_of_erase hlookup)

theorem Filled.lookup_bind_kept (hfilled : contents.Filled) (key : Bytes) :
    (contents.lookup key).bind kept = contents.lookup key := by
  have hstored := hfilled key
  cases hlookup : contents.lookup key with
  | none => rfl
  | some bytes =>
      rw [hlookup] at hstored
      exact kept_of_ne_nil fun hnil => hstored (hnil ▸ rfl)

end Contents

variable {keys : Codec Key} {values : Codec Value}

open Dictionary (encoded typed Encodes encodes_empty agrees_encodes)

theorem Dictionary.Answers.filled {limit : Nat} {contents next : Contents}
    {call : TypedMap.Call Key Value}
    {result : Except Fault (TypedMap.Reply Value)}
    (hanswers : (encoded keys values).Answers limit contents call result next)
    (hwidth : 0 < values.width) (hfilled : contents.Filled) :
    next.Filled := by
  cases hanswers with
  | @insert key value =>
      exact hfilled.insert (Codec.encode_ne_nil hwidth value)
  | erase => exact hfilled.erase
  | clear => exact Contents.filled_empty
  | get => exact hfilled
  | contains => exact hfilled
  | reserve => exact hfilled
  | starved => exact hfilled

namespace TypedMap

def perform (map : TypedMap keys values) (request : Request Key Value) :
    Outcome (TypedMap keys values) (Reply Value) :=
  match request.call with
  | .insert key value => (map.insert request.limit key value).map .inserted
  | .get key => (Outcome.ofExcept map (map.get key)).map .found
  | .contains key => .done map (.contained (map.contains key))
  | .erase key => (map.erase key).map .erased
  | .clear => .done map.clear .done
  | .reserve extra =>
      (map.reserve request.limit extra).map fun _ => .done

def run (map : TypedMap keys values) (requests : List (Request Key Value)) :
    TypedMap keys values :=
  requests.foldl (fun map request => (map.perform request).state) map

def results (map : TypedMap keys values) :
    List (Request Key Value) → List (Except Fault (Reply Value))
  | [] => []
  | request :: requests =>
      let outcome := map.perform request
      outcome.result :: outcome.state.results requests

def encodings (map : TypedMap keys values) : Contents :=
  map.table.contents

def readWritten (values : Codec Value) : Written → Option Value
  | .added => none
  | .replaced previous => previous.bind values.decode

/-- The table is one that only typed keys and values were written to. -/
structure Typed (map : TypedMap keys values) : Prop where
  suits : map.table.Suits keys.width values.width
  filled : map.encodings.Filled

variable {map : TypedMap keys values} {limit : Nat}

theorem typed_create {room : Nat} (hcreate : create limit room = .ok map) :
    map.Typed ∧ map.encodings = ∅ := by
  unfold create at hcreate
  cases htable : Table.create limit room keys.width values.width with
  | error fault => simp [htable, Except.map] at hcreate
  | ok table =>
      rw [htable, Except.map, Except.ok.injEq] at hcreate
      subst hcreate
      obtain ⟨hsuits, hempty⟩ := Table.suits_create htable
      refine ⟨⟨hsuits, ?_⟩, hempty⟩
      rw [encodings, hempty]
      exact Contents.filled_empty

namespace Typed

variable (htyped : map.Typed)
include htyped

theorem good : map.table.WellFormed :=
  htyped.suits.good

theorem aligned_key (key : Key) : (keys.view key).Aligned :=
  Codec.aligned_view htyped.suits.keyStride_pos key

theorem aligned_value (value : Value) : (values.view value).Aligned :=
  Codec.aligned_view htyped.suits.valueStride_pos value

theorem isKey (key : Key) : (keys.view key).IsKey map.table.keyStride :=
  htyped.suits.keyStride_eq ▸
    Codec.isKey_view htyped.suits.keyStride_pos key

theorem length_eq : map.length = map.encodings.keys.card :=
  htyped.good.card_contents.symm

/-! ## Each call -/

theorem get_eq (key : Key) :
    map.get key = .ok ((encoded keys values).find map.encodings key) := by
  unfold get
  rw [htyped.good.get_eq_lookup (htyped.isKey key), Except.map,
    Option.bind_map]
  rfl

theorem contains_eq (key : Key) :
    map.contains key = (encoded keys values).holds map.encodings key :=
  htyped.good.contains_eq_mem (htyped.isKey key)

theorem readWritten_written (bytes : Bytes) :
    readWritten values (map.encodings.written bytes) =
      (map.encodings.lookup bytes).bind values.decode := by
  have hkept := htyped.filled.lookup_bind_kept bytes
  unfold Contents.written
  cases hlookup : map.encodings.lookup bytes with
  | none => rfl
  | some value =>
      rw [hlookup] at hkept
      exact congrArg (Option.bind · values.decode) hkept

theorem insert_cases (limit : Nat) (key : Key) (value : Value) :
    let outcome := map.insert limit key value
    let contents := map.encodings
    (outcome.result = .ok ((encoded keys values).find contents key) ∧
        outcome.state.encodings =
          (encoded keys values).put contents key value) ∨
      ∃ fault, outcome.result = .error fault ∧ fault.Starves limit ∧
        (encoded keys values).holds contents key = false ∧
        outcome.state.encodings = contents := by
  have hresult :
      (map.insert limit key value).result =
        (map.table.write limit (keys.view key)
          (values.view value)).result.map (readWritten values) := rfl
  rcases htyped.good.write_cases (htyped.aligned_key key)
      (htyped.aligned_value value) (htyped.isKey key)
      htyped.suits.valueStride_eq.symm limit with
    ⟨hwritten, hnext⟩ | ⟨fault, hrefused, hstarves, habsent, hnext⟩
  · left
    rw [hwritten] at hresult
    refine ⟨hresult.trans (congrArg Except.ok ?_), hnext⟩
    exact htyped.readWritten_written (keys.encode key)
  · right
    rw [hrefused] at hresult
    exact ⟨fault, hresult, hstarves, decide_eq_false habsent, hnext⟩

theorem fault?_insert (limit : Nat) (key : Key) (value : Value) :
    (map.insert limit key value).fault? =
      if map.contains key then none
      else map.table.growthRefusal? limit := by
  have hfault := htyped.good.fault?_write (htyped.aligned_key key)
    (htyped.aligned_value value) (htyped.isKey key)
    htyped.suits.valueStride_eq.symm limit
  exact (Outcome.fault?_map _ _).trans hfault

theorem erase_eq (key : Key) :
    (map.erase key).result =
        .ok ((encoded keys values).find map.encodings key) ∧
      (map.erase key).state.encodings =
        (encoded keys values).drop map.encodings key := by
  have hkept := htyped.filled.lookup_bind_kept (keys.encode key)
  obtain ⟨herased, hnext⟩ :=
    htyped.good.erase_eq_lookup (htyped.aligned_key key) (htyped.isKey key)
  refine ⟨?_, hnext⟩
  have hresult :
      (map.erase key).result =
        (map.table.erase (keys.view key)).result.map
          (Option.bind · (readValue values)) := rfl
  rw [hresult, herased, Except.map, Except.ok.injEq, Option.bind_map]
  change (map.encodings.lookup (keys.encode key)).bind
      (fun bytes => (Contents.kept bytes).bind values.decode) =
    (map.encodings.lookup (keys.encode key)).bind values.decode
  rw [← Option.bind_assoc, hkept]

theorem reserve_cases (limit extra : Nat) :
    let outcome := map.reserve limit extra
    outcome.state.encodings = map.encodings ∧
      (outcome.result = .ok () ∨
        ∃ fault, outcome.result = .error fault ∧ fault.Starves limit) :=
  (htyped.good.reserveCase limit extra).contents_cases

/-! ## Each request -/

theorem answers (request : Request Key Value) :
    (encoded keys values).Answers request.limit map.encodings request.call
      (map.perform request).result
      (map.perform request).state.encodings := by
  rcases request with ⟨limit, call⟩
  cases call with
  | insert key value =>
      change (encoded keys values).Answers limit map.encodings _
        ((map.insert limit key value).result.map .inserted)
        (map.insert limit key value).state.encodings
      rcases htyped.insert_cases limit key value with
        ⟨hresult, hnext⟩ | ⟨fault, hresult, hstarves, habsent, hnext⟩
      · rw [hresult, hnext]
        exact .insert
      · rw [hresult, hnext]
        exact .starved habsent hstarves
  | get key =>
      simp only [perform, htyped.get_eq]
      exact .get
  | contains key =>
      simp only [perform, htyped.contains_eq]
      exact .contains
  | erase key =>
      obtain ⟨hresult, hnext⟩ := htyped.erase_eq key
      change (encoded keys values).Answers limit map.encodings _
        ((map.erase key).result.map .erased)
        (map.erase key).state.encodings
      rw [hresult, hnext]
      exact .erase
  | clear =>
      have hnext : map.clear.encodings = ∅ := Table.contents_clear map.table
      simp only [perform, Outcome.done, hnext]
      exact .clear
  | reserve extra =>
      obtain ⟨hnext, hresult | ⟨fault, hresult, hstarves⟩⟩ :=
        htyped.reserve_cases limit extra
      all_goals
        simp only [perform, Outcome.map, hnext, hresult]
      · exact .reserve
      · exact .starved trivial hstarves

theorem perform (request : Request Key Value) :
    (map.perform request).state.Typed := by
  have hsuits := htyped.suits
  have hfilled := (htyped.answers request).filled hsuits.valueStride_pos
    htyped.filled
  rcases request with ⟨limit, call⟩
  cases call with
  | insert key value =>
      have hkey := htyped.aligned_key key
      have hvalue := htyped.aligned_value value
      exact ⟨hsuits.write hkey hvalue limit, hfilled⟩
  | get key =>
      have hstate := Table.state_ofExcept map (map.get key)
      exact hstate.symm ▸ htyped
  | contains key => exact htyped
  | erase key => exact ⟨hsuits.erase _, hfilled⟩
  | clear => exact ⟨hsuits.clear, hfilled⟩
  | reserve extra => exact ⟨hsuits.reserve limit extra, hfilled⟩

theorem atomic_perform (request : Request Key Value) :
    (map.perform request).Atomic map := by
  have hgood := htyped.good
  rcases request with ⟨limit, call⟩
  cases call with
  | insert key value =>
      have hkey := htyped.aligned_key key
      have hvalue := htyped.aligned_value value
      have hatomic := (hgood.writeCase limit hkey hvalue).atomic
      exact ((hatomic.mapState TypedMap.mk).map _).map _
  | get key => exact (Table.atomic_ofExcept map (map.get key)).map _
  | contains key => exact Outcome.atomic_done _ _ _
  | erase key =>
      have hatomic := (hgood.eraseCase (keys.view key)).atomic
      exact ((hatomic.mapState TypedMap.mk).map _).map _
  | clear => exact Outcome.atomic_done _ _ _
  | reserve extra =>
      have hatomic := (hgood.reserveCase limit extra).atomic
      exact (hatomic.mapState TypedMap.mk).map _

/-! ## A session -/

theorem run (requests : List (Request Key Value)) :
    (map.run requests).Typed := by
  induction requests generalizing map with
  | nil => exact htyped
  | cons request requests ih => exact ih (htyped.perform request)

theorem follows (requests : List (Request Key Value)) :
    (encoded keys values).Follows map.encodings requests
      (map.results requests) (map.run requests).encodings := by
  induction requests generalizing map with
  | nil => exact .nil map.encodings
  | cons request requests ih =>
      exact .cons (htyped.answers request) (ih (htyped.perform request))

end Typed

/-! ## Codecs that read back what they write -/

/-- The map and the finite map of typed values cannot be told apart. -/
structure Holds [DecidableEq Key] (map : TypedMap keys values)
    (entries : Finmap fun _ : Key => Value) : Prop where
  length_eq : map.length = entries.keys.card
  get_eq : ∀ key, map.get key = .ok (entries.lookup key)
  contains_eq : ∀ key, map.contains key = decide (key ∈ entries)
  found_iff :
    ∀ key, (∃ value, map.get key = .ok (some value)) ↔
      map.contains key = true
  new_iff :
    ∀ limit key value previous,
      (map.insert limit key value).result = .ok previous →
        (previous = none ↔ map.contains key = false)

theorem Typed.holds [DecidableEq Key] (htyped : map.Typed)
    {entries : Finmap fun _ : Key => Value}
    (hencodes : Encodes keys values map.encodings entries)
    (hkeys : keys.ReadsBack) (hvalues : values.ReadsBack) :
    map.Holds entries := by
  have hagrees := agrees_encodes hkeys hvalues
  have hget : ∀ key, map.get key = .ok (entries.lookup key) := by
    intro key
    rw [htyped.get_eq, hagrees.find hencodes]
    rfl
  have hcontains : ∀ key, map.contains key = decide (key ∈ entries) := by
    intro key
    rw [htyped.contains_eq, hagrees.holds hencodes]
    rfl
  refine ⟨?_, hget, hcontains, ?_, ?_⟩
  · rw [htyped.length_eq, hencodes.card_eq hkeys]
  · intro key
    rw [hget, hcontains, decide_eq_true_iff, ← Finmap.lookup_isSome,
      Option.isSome_iff_exists]
    simp only [Except.ok.injEq]
  · intro limit key value previous hinserted
    rcases htyped.insert_cases limit key value with
      ⟨hresult, -⟩ | ⟨fault, hresult, -⟩
    · rw [hresult, hagrees.find hencodes, Except.ok.injEq] at hinserted
      rw [← hinserted, hcontains, decide_eq_false_iff_not]
      exact Finmap.lookup_eq_none
    · rw [hresult] at hinserted
      exact absurd hinserted nofun

/-- A session on a created map is one on the dictionary of encodings, whether
or not what it stores can be read, and one on the dictionary of typed values
if everything can. -/
theorem simulates_dictionary [DecidableEq Key] {room : Nat}
    (hcreate : create limit room = .ok map)
    (requests : List (Request Key Value)) :
    let results := map.results requests
    let last := map.run requests
    (encoded keys values).Follows ∅ requests results last.encodings ∧
      last.length = last.encodings.keys.card ∧
      (∀ request, (last.perform request).Atomic last) ∧
      (∀ limit key value, (last.insert limit key value).fault? =
        if last.contains key then none
        else last.table.growthRefusal? limit) ∧
      (∀ key, View.withStride (keys.encode key) keys.width =
        .ok (keys.view key)) ∧
      (∀ value, View.withStride (values.encode value) values.width =
        .ok (values.view value)) ∧
      (keys.ReadsBack → values.ReadsBack →
        ∃ entries : Finmap fun _ : Key => Value,
          (typed Key Value).Follows ∅ requests results entries ∧
            last.Holds entries) := by
  obtain ⟨htyped, hempty⟩ := typed_create hcreate
  have hfollows := htyped.follows requests
  have hlast := htyped.run requests
  rw [hempty] at hfollows
  refine ⟨hfollows, hlast.length_eq, hlast.atomic_perform,
    hlast.fault?_insert,
    Codec.withStride_encode htyped.suits.keyStride_pos,
    Codec.withStride_encode htyped.suits.valueStride_pos, ?_⟩
  intro hkeys hvalues
  obtain ⟨entries, htypedFollows, hencodes⟩ :=
    hfollows.transfer (agrees_encodes hkeys hvalues) encodes_empty
  exact ⟨entries, htypedFollows, hlast.holds hencodes hkeys hvalues⟩

open Codec (octet)

/-- Writes every octet and reads only the even ones. -/
def evenOctet : Codec UInt8 :=
  octet.restrict fun n => n % 2 == 0

/-- The odd value of key 3 is stored and counted but not read: the map has
the key and no value for it.  Seven more entries would need more slots. -/
def declining : List (Request UInt8 UInt8) :=
  [⟨8, .insert 3 4⟩, ⟨8, .insert 3 7⟩, ⟨8, .get 3⟩, ⟨8, .contains 3⟩,
    ⟨8, .insert 5 6⟩, ⟨8, .reserve 7⟩, ⟨8, .erase 3⟩, ⟨8, .contains 3⟩]

theorem simulates_dictionary_declining :
    let map : TypedMap octet evenOctet := ⟨⟨Slots.blank 8, 0, 0, 1, 1⟩⟩
    let plain : TypedMap octet octet := ⟨⟨Slots.blank 8, 0, 0, 1, 1⟩⟩
    create 8 0 = .ok map ∧ create 8 0 = .ok plain ∧
      map.results declining =
        [.ok (.inserted none), .ok (.inserted (some 4)), .ok (.found none),
          .ok (.contained true), .ok (.inserted none),
          .error (.allocation 16), .ok (.erased none),
          .ok (.contained false)] ∧
      plain.results declining =
        [.ok (.inserted none), .ok (.inserted (some 4)),
          .ok (.found (some 7)), .ok (.contained true),
          .ok (.inserted none), .error (.allocation 16),
          .ok (.erased (some 7)), .ok (.contained false)] ∧
      (encoded octet evenOctet).Follows ∅ declining (map.results declining)
        (map.run declining).encodings ∧
      ∃ entries : Finmap fun _ : UInt8 => UInt8,
        (typed _ _).Follows ∅ declining (plain.results declining) entries ∧
          (plain.run declining).Holds entries := by
  have hcreate : create 8 0 =
      .ok (⟨⟨Slots.blank 8, 0, 0, 1, 1⟩⟩ : TypedMap octet evenOctet) := rfl
  have hplain : create 8 0 =
      .ok (⟨⟨Slots.blank 8, 0, 0, 1, 1⟩⟩ : TypedMap octet octet) := rfl
  have hreads := Codec.readsBack_octet
  have hdeclining := simulates_dictionary hcreate declining
  have hreading := simulates_dictionary hplain declining
  exact ⟨hcreate, hplain, by decide +kernel, by decide +kernel,
    hdeclining.1, hreading.2.2.2.2.2.2 hreads hreads⟩

end TypedMap

end LinearProbing
