import LinearProbing.Proofs.TableUpdates
import LinearProbing.Proofs.Traversal

/-!
# Sessions

A request is one call of a table's interface together with the allocation
limit that is in force during the call.  Performing it gives a reply or a
fault, the table afterwards and the record of a rehash.  A session performs
requests one after the other, whatever their outcomes.

Callers cannot make a view of a broken element, so requests carry aligned
views.  The tables that some session on a created table leads to are the
reachable ones, and all of them are well formed.
-/

namespace LinearProbing

abbrev AlignedView :=
  { view : View // view.Aligned }

def AlignedView.plain (bytes : Bytes) : AlignedView :=
  ⟨.plain bytes, View.aligned_plain bytes⟩

inductive Call
  | write (key value : AlignedView)
  | insert (key value : AlignedView)
  | get (key : AlignedView)
  | contains (key : AlignedView)
  | erase (key : AlignedView)
  | reserve (extra : Nat)
  | clear
  | list (steps : Nat)
  | drain (steps : Nat) (abandoned : Bool)

inductive Reply
  | written (written : Written)
  | inserted (isNew : Bool)
  | found (value : Option View)
  | contained (isPresent : Bool)
  | erased (entry : Option Entry)
  | listed (entries : List Entry)
  | done
deriving DecidableEq

structure Request where
  limit : Nat
  call : Call

namespace Table

def perform (table : Table) (request : Request) : Outcome Table Reply :=
  match request.call with
  | .write key value =>
      (table.write request.limit key.val value.val).map .written
  | .insert key value =>
      (table.insert request.limit key.val value.val).map .inserted
  | .get key => (Outcome.ofExcept table (table.get key.val)).map .found
  | .contains key => .done table (.contained (table.contains key.val))
  | .erase key => (table.erase key.val).map .erased
  | .reserve extra =>
      (table.reserve request.limit extra).map fun _ => .done
  | .clear => .done table.clear .done
  | .list steps => .done table (.listed (table.cursor.take steps).1)
  | .drain steps abandoned =>
      let (entries, last) := table.drain.take steps
      .done (if abandoned then last.abandon else last.finish)
        (.listed entries)

def run (table : Table) (requests : List Request) : Table :=
  requests.foldl (fun table request => (table.perform request).state) table

def outcomes (table : Table) : List Request → List (Outcome Table Reply)
  | [] => []
  | request :: requests =>
      let outcome := table.perform request
      outcome :: outcome.state.outcomes requests

inductive Reachable : Table → Prop
  | create {limit room keyStride valueStride : Nat} {table : Table}
      (hcreate : Table.create limit room keyStride valueStride = .ok table) :
      Reachable table
  | perform {table : Table} (hreach : Reachable table)
      (request : Request) : Reachable (table.perform request).state

variable {table : Table}

theorem result_ofExcept {State Answer : Type} (state : State)
    (result : Except Fault Answer) :
    (Outcome.ofExcept state result).result = result := by
  cases result <;> rfl

theorem state_ofExcept {State Answer : Type} (state : State)
    (result : Except Fault Answer) :
    (Outcome.ofExcept state result).state = state := by
  cases result <;> rfl

theorem WellFormed.perform (hgood : table.WellFormed) (request : Request) :
    (table.perform request).state.WellFormed := by
  rcases request with ⟨limit, call⟩
  cases call with
  | write key value =>
      exact (hgood.writeCase limit key.2 value.2).wellFormed hgood key.2
        value.2
  | insert key value =>
      exact (hgood.writeCase limit key.2 value.2).wellFormed hgood key.2
        value.2
  | get key =>
      have hstate := state_ofExcept table (table.get key.val)
      exact hstate.symm ▸ hgood
  | contains key => exact hgood
  | erase key => exact (hgood.eraseCase key.val).wellFormed hgood
  | reserve extra => exact (hgood.reserveCase limit extra).wellFormed hgood
  | clear => exact hgood.clear
  | list steps => exact hgood
  | drain steps abandoned =>
      have hlast := (hgood.drain_onward.take steps).2.2
      cases abandoned with
      | true => exact hlast
      | false => exact hlast.clear

theorem wellFormed_run (hgood : table.WellFormed) (requests : List Request) :
    (table.run requests).WellFormed := by
  induction requests generalizing table with
  | nil => exact hgood
  | cons request requests ih => exact ih (hgood.perform request)

/-! ## The strides are fixed -/

structure SameStrides (table other : Table) : Prop where
  key_eq : other.keyStride = table.keyStride
  value_eq : other.valueStride = table.valueStride

theorem SameStrides.refl (table : Table) : table.SameStrides table :=
  ⟨rfl, rfl⟩

theorem SameStrides.trans {first second third : Table}
    (hfirst : first.SameStrides second)
    (hsecond : second.SameStrides third) : first.SameStrides third :=
  ⟨hsecond.key_eq.trans hfirst.key_eq,
    hsecond.value_eq.trans hfirst.value_eq⟩

theorem WriteCase.sameStrides {limit : Nat} {key value : View}
    {outcome : Outcome Table Written}
    (hcase : WriteCase limit table key value outcome) :
    table.SameStrides outcome.state := by
  cases hcase with
  | grown haccept habsent hfirst hfull hword hlimit hgrows =>
      exact ⟨hgrows.keyStride_eq, hgrows.valueStride_eq⟩
  | _ => exact ⟨rfl, rfl⟩

theorem EraseCase.sameStrides {key : View}
    {outcome : Outcome Table (Option Entry)}
    (hcase : EraseCase table key outcome) :
    table.SameStrides outcome.state := by
  cases hcase <;> exact ⟨rfl, rfl⟩

theorem ReserveCase.sameStrides {limit extra : Nat}
    {outcome : Outcome Table Unit}
    (hcase : ReserveCase limit table extra outcome) :
    table.SameStrides outcome.state := by
  cases hcase with
  | grown hfit hne hlimit hgrows =>
      exact ⟨hgrows.keyStride_eq, hgrows.valueStride_eq⟩
  | _ => exact ⟨rfl, rfl⟩

theorem sameStrides_drain (drain : Drain) (steps : Nat) :
    drain.table.SameStrides (drain.take steps).2.table := by
  induction steps generalizing drain with
  | zero => exact .refl _
  | succ steps ih =>
      rw [Drain.take, Drain.next]
      cases Drain.seek drain.table.slots drain.index
          (drain.table.capacity - drain.index) with
      | none => exact .refl _
      | some found =>
          rcases found with ⟨index, entry⟩
          have hburied : drain.table.SameStrides (drain.table.bury index) :=
            ⟨rfl, rfl⟩
          exact hburied.trans (ih ⟨drain.table.bury index, index + 1⟩)

theorem WellFormed.sameStrides_perform (hgood : table.WellFormed)
    (request : Request) :
    table.SameStrides (table.perform request).state := by
  rcases request with ⟨limit, call⟩
  cases call with
  | write key value =>
      exact (hgood.writeCase limit key.2 value.2).sameStrides
  | insert key value =>
      exact (hgood.writeCase limit key.2 value.2).sameStrides
  | get key =>
      have hstate := state_ofExcept table (table.get key.val)
      exact hstate.symm ▸ .refl table
  | contains key => exact .refl table
  | erase key => exact (hgood.eraseCase key.val).sameStrides
  | reserve extra => exact (hgood.reserveCase limit extra).sameStrides
  | clear => exact ⟨rfl, rfl⟩
  | list steps => exact .refl table
  | drain steps abandoned =>
      have hdrain := sameStrides_drain table.drain steps
      cases abandoned with
      | true => exact hdrain
      | false => exact hdrain.trans ⟨rfl, rfl⟩

/-! ## Reachable tables -/

theorem reachable_blank : Reachable ⟨Slots.blank 8, 0, 0, 1, 1⟩ :=
  @Reachable.create 8 0 1 1 _ rfl

theorem Reachable.wellFormed (hreach : Reachable table) :
    table.WellFormed := by
  induction hreach with
  | create hcreate => exact (wellFormed_create hcreate).1
  | perform hreach request ih => exact ih.perform request

theorem Reachable.run (hreach : Reachable table) (requests : List Request) :
    Reachable (table.run requests) := by
  induction requests generalizing table with
  | nil => exact hreach
  | cons request requests ih => exact ih (hreach.perform request)

end Table

end LinearProbing
