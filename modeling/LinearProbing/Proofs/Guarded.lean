import LinearProbing.Slots

/-!
# Guarded computations

Tables are computed with numbers of any size, and their slots can be read at
any index.  A machine has words for numbers, must not leave the array, and
has loops that may go on for ever.  A guarded computation makes every such
check: it stops at the first one that fails, and a loop that does not end has
no result at all.  So a guarded form of an operation which equals `pure` of
the operation itself shows that no check of it ever fails and that every loop
in it ends.

A loop is given by its turns and bounded by nothing.  It has the result of
its first turns if some number of them ends it, which is the same as to take
one turn and to go on from there (`loop_eq`).
-/

namespace LinearProbing

/-- The checks that a computation can fail. -/
inductive Breach
  | overflow
  | underflow
  | outside (index : Nat)
  | stray (index : Nat)
  | refuted
deriving DecidableEq

/-- `none` stands for a loop that goes on for ever. -/
abbrev Guarded :=
  ExceptT Breach Option

namespace Guarded

def endless {α : Type} : Guarded α :=
  (none : Option (Except Breach α))

def demand (condition : Prop) [Decidable condition] : Guarded Unit :=
  if condition then pure () else throw .refuted

/-- A sum that must fit a machine word. -/
def add (m n : Nat) : Guarded Nat :=
  if m + n < UInt64.size then pure (m + n) else throw .overflow

def sub (m n : Nat) : Guarded Nat :=
  if n ≤ m then pure (m - n) else throw .underflow

/-- A product that must fit a machine word. -/
def mul (m n : Nat) : Guarded Nat :=
  if m * n < UInt64.size then pure (m * n) else throw .overflow

def readSlot (slots : Slots) (index : Nat) : Guarded Slot :=
  if index < slots.size then
    pure (slots.get index)
  else
    throw (.outside index)

def writeSlot (slots : Slots) (index : Nat) (slot : Slot) : Guarded Slots :=
  if index < slots.size then
    pure (slots.put index slot)
  else
    throw (.outside index)

variable {condition : Prop} [Decidable condition] {m n index : Nat}
  {slots : Slots}

theorem demand_eq (hcondition : condition) : demand condition = pure () :=
  if_pos hcondition

theorem add_eq (hword : m + n < UInt64.size) : add m n = pure (m + n) :=
  if_pos hword

theorem sub_eq (hle : n ≤ m) : sub m n = pure (m - n) :=
  if_pos hle

theorem mul_eq (hword : m * n < UInt64.size) : mul m n = pure (m * n) :=
  if_pos hword

theorem readSlot_eq (hindex : index < slots.size) :
    readSlot slots index = pure (slots.get index) :=
  if_pos hindex

theorem writeSlot_eq (hindex : index < slots.size) (slot : Slot) :
    writeSlot slots index slot = pure (slots.put index slot) :=
  if_pos hindex

/-! ## Loops -/

/-- What a turn of a loop comes to. -/
inductive Turn (State Result : Type)
  | again (state : State)
  | done (result : Result)

variable {State Result : Type} {turn : State → Guarded (Turn State Result)}
  {state next : State} {turns : Nat}

def proceed (rest : State → Guarded Result) :
    Turn State Result → Guarded Result
  | .again next => rest next
  | .done result => pure result

/-- The result of a loop, should it end within so many turns. -/
def within (turn : State → Guarded (Turn State Result)) :
    Nat → State → Guarded Result
  | 0, _ => endless
  | turns + 1, state => turn state >>= proceed (within turn turns)

open Classical in
noncomputable def loop (turn : State → Guarded (Turn State Result))
    (state : State) : Guarded Result :=
  if hends : ∃ turns, within turn turns state ≠ endless then
    within turn hends.choose state
  else
    endless

theorem within_succ_of_ends (hends : within turn turns state ≠ endless) :
    within turn (turns + 1) state = within turn turns state := by
  induction turns generalizing state with
  | zero => exact absurd rfl hends
  | succ turns ih =>
      rw [within] at hends ⊢
      rw [within]
      rcases hturn : turn state with _ | breach | next | result
      · rfl
      · rfl
      · rw [hturn] at hends
        exact ih hends
      · rfl

theorem within_add_of_ends (hends : within turn turns state ≠ endless)
    (more : Nat) :
    within turn (turns + more) state = within turn turns state := by
  induction more with
  | zero => rfl
  | succ more ih =>
      rw [← Nat.add_assoc, within_succ_of_ends (ih ▸ hends), ih]

theorem loop_eq_within (hends : within turn turns state ≠ endless) :
    loop turn state = within turn turns state := by
  have hexists : ∃ turns, within turn turns state ≠ endless :=
    ⟨turns, hends⟩
  rw [loop, dif_pos hexists,
    ← within_add_of_ends hexists.choose_spec turns, Nat.add_comm,
    within_add_of_ends hends]

theorem loop_of_endless
    (hendless : ∀ turns, within turn turns state = endless) :
    loop turn state = endless :=
  dif_neg fun ⟨turns, hends⟩ => hends (hendless turns)

theorem loop_of_again (hturn : turn state = pure (.again next)) :
    loop turn state = loop turn next := by
  have hwithin : ∀ turns,
      within turn (turns + 1) state = within turn turns next := by
    intro turns
    rw [within, hturn, pure_bind, proceed]
  by_cases hends : ∃ turns, within turn turns next ≠ endless
  · obtain ⟨turns, hturns⟩ := hends
    rw [loop_eq_within hturns, ← hwithin]
    exact loop_eq_within ((hwithin turns).symm ▸ hturns)
  · have hnext : ∀ turns, within turn turns next = endless :=
      fun turns => Classical.byContradiction fun hturns =>
        hends ⟨turns, hturns⟩
    rw [loop_of_endless hnext]
    apply loop_of_endless
    rintro (_ | turns)
    · rfl
    · rw [hwithin, hnext]

theorem loop_of_done {result : Result}
    (hturn : turn state = pure (.done result)) :
    loop turn state = pure result := by
  have hone : within turn 1 state = pure result := by
    rw [within, hturn, pure_bind, proceed]
  rw [← hone]
  apply loop_eq_within
  rw [hone]
  exact nofun

/-- A loop takes one turn and goes on from there. -/
theorem loop_eq (turn : State → Guarded (Turn State Result))
    (state : State) :
    loop turn state = turn state >>= proceed (loop turn) := by
  rcases hturn : turn state with _ | breach | next | result
  · apply loop_of_endless
    rintro (_ | turns)
    · rfl
    · rw [within, hturn]
      rfl
  · have hone : within turn 1 state = throw breach := by
      rw [within, hturn]
      rfl
    exact (loop_eq_within (by rw [hone]; exact nofun)).trans hone
  · exact loop_of_again hturn
  · exact loop_of_done hturn

end Guarded

end LinearProbing
