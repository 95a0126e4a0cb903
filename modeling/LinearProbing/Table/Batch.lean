import LinearProbing.Table.Update

/-!
# Batches

A batch runs one operation over a list of arguments, counts its two answers
and stops at the first argument that is refused.
-/

namespace LinearProbing

structure Batch (Argument : Type) where
  table : Table
  hits : Nat
  misses : Nat
  rehashes : List Rehash
  stopped : Option (Argument × Fault)

namespace Batch

variable {Argument : Type}

def runFrom (operation : Table → Argument → Outcome Table Bool) :
    List Argument → Table → Nat → Nat → List Rehash → Batch Argument
  | [], table, hits, misses, rehashes =>
      ⟨table, hits, misses, rehashes, none⟩
  | argument :: arguments, table, hits, misses, rehashes =>
      match operation table argument with
      | ⟨.error fault, table, rehash⟩ =>
          ⟨table, hits, misses, rehashes ++ rehash.toList,
            some (argument, fault)⟩
      | ⟨.ok true, table, rehash⟩ =>
          runFrom operation arguments table (hits + 1) misses
            (rehashes ++ rehash.toList)
      | ⟨.ok false, table, rehash⟩ =>
          runFrom operation arguments table hits (misses + 1)
            (rehashes ++ rehash.toList)

def run (operation : Table → Argument → Outcome Table Bool) (table : Table)
    (arguments : List Argument) : Batch Argument :=
  runFrom operation arguments table 0 0 []

/-- The batch, if it ran to its end. -/
def finished (batch : Batch Argument) : Except Fault (Batch Argument) :=
  match batch.stopped with
  | none => .ok batch
  | some (_, fault) => .error fault

end Batch

namespace Table

/-- Hits are the keys that were new. -/
def insertAll (limit : Nat) (table : Table) (pairs : List (View × View)) :
    Batch (View × View) :=
  Batch.run (fun table pair => table.insert limit pair.1 pair.2) table pairs

/-- Hits are the keys that were removed. -/
def eraseAll (table : Table) (keys : List View) : Batch View :=
  Batch.run (fun table key => (table.erase key).map Option.isSome) table keys

/-- Hits are the keys that were there. -/
def lookupAll (table : Table) (keys : List View) : Batch View :=
  Batch.run
    (fun table key =>
      (Outcome.ofExcept table (table.get key)).map Option.isSome)
    table keys

end Table

end LinearProbing
