import LinearProbing.Proofs.AcceptedCalls
import LinearProbing.Proofs.CodecLaws
import LinearProbing.TypedMap

/-!
# Dictionaries

A dictionary says what the calls of a typed map are answered in terms of some
state, be it the contents of a table or a finite map of typed values.  Which
answers a dictionary allows is stated once for all of them, and so is what a
session on it may come to.

If the codecs read back what they write, the contents of a table and the
finite map of values that they encode have the same answers, so a session
that follows the one follows the other (`Follows.transfer`).
-/

namespace LinearProbing

variable {Key Value State Other : Type}

namespace TypedMap

inductive Call (Key Value : Type)
  | insert (key : Key) (value : Value)
  | get (key : Key)
  | contains (key : Key)
  | erase (key : Key)
  | clear
  | reserve (extra : Nat)

inductive Reply (Value : Type)
  | inserted (previous : Option Value)
  | found (value : Option Value)
  | contained (isPresent : Bool)
  | erased (value : Option Value)
  | done
deriving DecidableEq

structure Request (Key Value : Type) where
  limit : Nat
  call : Call Key Value

end TypedMap

structure Dictionary (Key Value State : Type) where
  empty : State
  find : State → Key → Option Value
  holds : State → Key → Bool
  put : State → Key → Value → State
  drop : State → Key → State

namespace Dictionary

/-- The contents of a table, read and written through codecs. -/
def encoded (keys : Codec Key) (values : Codec Value) :
    Dictionary Key Value Contents where
  empty := ∅
  find contents key :=
    (contents.lookup (keys.encode key)).bind values.decode
  holds contents key := decide (keys.encode key ∈ contents)
  put contents key value :=
    contents.insert (keys.encode key) (values.encode value)
  drop contents key := contents.erase (keys.encode key)

def typed (Key Value : Type) [DecidableEq Key] :
    Dictionary Key Value (Finmap fun _ : Key => Value) where
  empty := ∅
  find entries key := entries.lookup key
  holds entries key := decide (key ∈ entries)
  put entries key value := entries.insert key value
  drop entries key := entries.erase key

/-- The calls that may need a larger slot array. -/
def Grows (dictionary : Dictionary Key Value State) (state : State) :
    TypedMap.Call Key Value → Prop
  | .insert key _ => dictionary.holds state key = false
  | .reserve _ => True
  | .get _ | .contains _ | .erase _ | .clear => False

inductive Answers (dictionary : Dictionary Key Value State) (limit : Nat)
    (state : State) :
    TypedMap.Call Key Value → Except Fault (TypedMap.Reply Value) →
      State → Prop
  | insert {key : Key} {value : Value} :
      Answers dictionary limit state (.insert key value)
        (.ok (.inserted (dictionary.find state key)))
        (dictionary.put state key value)
  | get {key : Key} :
      Answers dictionary limit state (.get key)
        (.ok (.found (dictionary.find state key))) state
  | contains {key : Key} :
      Answers dictionary limit state (.contains key)
        (.ok (.contained (dictionary.holds state key))) state
  | erase {key : Key} :
      Answers dictionary limit state (.erase key)
        (.ok (.erased (dictionary.find state key)))
        (dictionary.drop state key)
  | clear :
      Answers dictionary limit state .clear (.ok .done) dictionary.empty
  | reserve {extra : Nat} :
      Answers dictionary limit state (.reserve extra) (.ok .done) state
  | starved {call : TypedMap.Call Key Value} {fault : Fault}
      (hgrows : dictionary.Grows state call)
      (hfault : fault.Starves limit) :
      Answers dictionary limit state call (.error fault) state

inductive Follows (dictionary : Dictionary Key Value State) :
    State → List (TypedMap.Request Key Value) →
      List (Except Fault (TypedMap.Reply Value)) → State → Prop
  | nil (state : State) : Follows dictionary state [] [] state
  | cons {state next last : State} {request : TypedMap.Request Key Value}
      {requests : List (TypedMap.Request Key Value)}
      {result : Except Fault (TypedMap.Reply Value)}
      {results : List (Except Fault (TypedMap.Reply Value))}
      (hfirst : dictionary.Answers request.limit state request.call result
        next)
      (hlater : Follows dictionary next requests results last) :
      Follows dictionary state (request :: requests) (result :: results)
        last

/-! ## Two dictionaries with the same answers -/

structure Agrees (dictionary : Dictionary Key Value State)
    (other : Dictionary Key Value Other) (related : State → Other → Prop) :
    Prop where
  empty : related dictionary.empty other.empty
  find :
    ∀ {left right}, related left right → ∀ key,
      dictionary.find left key = other.find right key
  holds :
    ∀ {left right}, related left right → ∀ key,
      dictionary.holds left key = other.holds right key
  put :
    ∀ {left right}, related left right → ∀ key value,
      related (dictionary.put left key value) (other.put right key value)
  drop :
    ∀ {left right}, related left right → ∀ key,
      related (dictionary.drop left key) (other.drop right key)

section

variable {dictionary : Dictionary Key Value State}
  {other : Dictionary Key Value Other} {related : State → Other → Prop}
  {left next : State} {right : Other}

theorem Answers.transfer (hagrees : dictionary.Agrees other related)
    (hrelated : related left right) {limit : Nat}
    {call : TypedMap.Call Key Value}
    {result : Except Fault (TypedMap.Reply Value)}
    (hanswers : dictionary.Answers limit left call result next) :
    ∃ after, other.Answers limit right call result after ∧
      related next after := by
  cases hanswers with
  | insert =>
      rw [hagrees.find hrelated]
      exact ⟨_, .insert, hagrees.put hrelated _ _⟩
  | get =>
      rw [hagrees.find hrelated]
      exact ⟨_, .get, hrelated⟩
  | contains =>
      rw [hagrees.holds hrelated]
      exact ⟨_, .contains, hrelated⟩
  | erase =>
      rw [hagrees.find hrelated]
      exact ⟨_, .erase, hagrees.drop hrelated _⟩
  | clear => exact ⟨_, .clear, hagrees.empty⟩
  | reserve => exact ⟨_, .reserve, hrelated⟩
  | starved hgrows hfault =>
      refine ⟨_, .starved ?_ hfault, hrelated⟩
      cases call with
      | insert key value => exact (hagrees.holds hrelated key).symm.trans hgrows
      | reserve extra => trivial
      | _ => exact hgrows.elim

theorem Follows.transfer (hagrees : dictionary.Agrees other related)
    (hrelated : related left right)
    {requests : List (TypedMap.Request Key Value)}
    {results : List (Except Fault (TypedMap.Reply Value))}
    (hfollows : dictionary.Follows left requests results next) :
    ∃ last, other.Follows right requests results last ∧
      related next last := by
  induction hfollows generalizing right with
  | nil state => exact ⟨right, .nil right, hrelated⟩
  | cons hfirst hlater ih =>
      obtain ⟨after, hafter, hstep⟩ := hfirst.transfer hagrees hrelated
      obtain ⟨last, hlast, hend⟩ := ih hstep
      exact ⟨last, .cons hafter hlast, hend⟩

end

/-! ## Contents that encode a finite map -/

/-- The contents hold the encodings of some entries and nothing else. -/
structure Encodes (keys : Codec Key) (values : Codec Value)
    [DecidableEq Key] (contents : Contents)
    (entries : Finmap fun _ : Key => Value) : Prop where
  lookup_eq :
    ∀ key, contents.lookup (keys.encode key) =
      (entries.lookup key).map values.encode
  covered : ∀ bytes ∈ contents, ∃ key, keys.encode key = bytes

section

variable [DecidableEq Key] {keys : Codec Key} {values : Codec Value}
  {contents : Contents} {entries : Finmap fun _ : Key => Value}

theorem Encodes.mem_iff (hencodes : Encodes keys values contents entries)
    (key : Key) : keys.encode key ∈ contents ↔ key ∈ entries := by
  rw [← Finmap.lookup_isSome, ← Finmap.lookup_isSome,
    hencodes.lookup_eq, Option.isSome_map]

theorem encodes_empty :
    Encodes keys values ∅ (∅ : Finmap fun _ : Key => Value) where
  lookup_eq key := by simp
  covered bytes hmem := absurd hmem Finmap.notMem_empty

theorem Encodes.insert (hencodes : Encodes keys values contents entries)
    (hreads : keys.ReadsBack) (key : Key) (value : Value) :
    Encodes keys values
      (contents.insert (keys.encode key) (values.encode value))
      (entries.insert key value) where
  lookup_eq other := by
    by_cases heq : other = key
    · rw [heq, Finmap.lookup_insert, Finmap.lookup_insert, Option.map_some]
    · have hne := hreads.injective.ne heq
      rw [Finmap.lookup_insert_of_ne _ hne,
        Finmap.lookup_insert_of_ne _ heq, hencodes.lookup_eq]
  covered bytes hmem := by
    rcases Finmap.mem_insert.mp hmem with rfl | hold
    · exact ⟨key, rfl⟩
    · exact hencodes.covered bytes hold

theorem Encodes.erase (hencodes : Encodes keys values contents entries)
    (hreads : keys.ReadsBack) (key : Key) :
    Encodes keys values (contents.erase (keys.encode key))
      (entries.erase key) where
  lookup_eq other := by
    by_cases heq : other = key
    · rw [heq, Finmap.lookup_erase, Finmap.lookup_erase, Option.map_none]
    · have hne := hreads.injective.ne heq
      rw [Finmap.lookup_erase_ne hne, Finmap.lookup_erase_ne heq,
        hencodes.lookup_eq]
  covered bytes hmem :=
    hencodes.covered bytes (Finmap.mem_erase.mp hmem).2

theorem Encodes.find_eq (hencodes : Encodes keys values contents entries)
    (hreads : values.ReadsBack) (key : Key) :
    (contents.lookup (keys.encode key)).bind values.decode =
      entries.lookup key := by
  rw [hencodes.lookup_eq]
  cases entries.lookup key with
  | none => rfl
  | some value => exact hreads value

theorem Encodes.card_eq (hencodes : Encodes keys values contents entries)
    (hreads : keys.ReadsBack) :
    contents.keys.card = entries.keys.card := by
  have himage : contents.keys = entries.keys.image keys.encode := by
    ext bytes
    rw [Finmap.mem_keys, Finset.mem_image]
    constructor
    · intro hmem
      obtain ⟨key, rfl⟩ := hencodes.covered bytes hmem
      exact ⟨key, Finmap.mem_keys.mpr ((hencodes.mem_iff key).mp hmem), rfl⟩
    · rintro ⟨key, hkey, rfl⟩
      exact (hencodes.mem_iff key).mpr (Finmap.mem_keys.mp hkey)
  rw [himage, Finset.card_image_of_injective _ hreads.injective]

theorem agrees_encodes (hkeys : keys.ReadsBack) (hvalues : values.ReadsBack) :
    (encoded keys values).Agrees (typed Key Value)
      (Encodes keys values) where
  empty := encodes_empty
  find hencodes key := hencodes.find_eq hvalues key
  holds hencodes key := decide_eq_decide.mpr (hencodes.mem_iff key)
  put hencodes key value := hencodes.insert hkeys key value
  drop hencodes key := hencodes.erase hkeys key

end

end Dictionary

end LinearProbing
