/-!
Names for merge nodes and placeholders. One counter serves both, and a name that is reserved or
taken is skipped.
-/

namespace HardwareLinker

structure NameSupply where
  taken : List String
  counter : Nat
deriving Repr

namespace NameSupply

def reserve (names : List String) : NameSupply := ⟨names, 0⟩

def candidate (stem : String) (k : Nat) : String := stem ++ "_" ++ toString k

/-- The first candidate that is free; among one more candidate than there are taken names one is. -/
def freshIndex (s : NameSupply) (stem : String) : Nat :=
  ((List.range' s.counter (s.taken.length + 1)).find? fun k =>
    !s.taken.contains (candidate stem k)).getD (s.counter + s.taken.length)

def fresh (s : NameSupply) (stem : String) : String × NameSupply :=
  let k := s.freshIndex stem
  (candidate stem k, ⟨candidate stem k :: s.taken, k + 1⟩)

def node (s : NameSupply) : String × NameSupply := s.fresh "lim_node"

def placeholder (s : NameSupply) : String × NameSupply := s.fresh "lim_empty"

end NameSupply
end HardwareLinker
