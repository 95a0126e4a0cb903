import LinearProbing.Fault

/-!
# Outcomes of updates

An update that is refused still leaves a state behind, so an outcome holds
the state beside the answer or the fault, and the record of the rehash that
happened on the way, if one did.
-/

namespace LinearProbing

/-- All entries moved from `before` slots to `after` slots. -/
structure Rehash where
  before : Nat
  after : Nat
  moved : Nat
  reclaimed : Nat
deriving DecidableEq

namespace Rehash

def message (rehash : Rehash) : String :=
  s!"rehashed {rehash.before} -> {rehash.after} slots, " ++
    s!"moved {rehash.moved} entries, " ++
    s!"reclaimed {rehash.reclaimed} tombstones"

def logLine (rehash : Rehash) : String :=
  "TRACE " ++ rehash.message

end Rehash

structure Outcome (State Answer : Type) where
  result : Except Fault Answer
  state : State
  rehash : Option Rehash

namespace Outcome

variable {State Other Answer Reply : Type}

def done (state : State) (answer : Answer) : Outcome State Answer :=
  ⟨.ok answer, state, none⟩

def refused (state : State) (fault : Fault) : Outcome State Answer :=
  ⟨.error fault, state, none⟩

/-- The state is what it was and only the answer counts. -/
def ofExcept (state : State) : Except Fault Answer → Outcome State Answer
  | .ok answer => .done state answer
  | .error fault => .refused state fault

def map (f : Answer → Reply) (outcome : Outcome State Answer) :
    Outcome State Reply :=
  ⟨outcome.result.map f, outcome.state, outcome.rehash⟩

def mapState (f : State → Other) (outcome : Outcome State Answer) :
    Outcome Other Answer :=
  ⟨outcome.result, f outcome.state, outcome.rehash⟩

end Outcome

end LinearProbing
