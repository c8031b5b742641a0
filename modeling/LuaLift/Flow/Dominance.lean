import LuaLift.Flow.Digraph

namespace LuaLift

structure Dominance where
  size : Nat
  reach : List Nat
  avoiding : List (List Nat)
  deriving Repr

namespace Dominance

def of (g : Digraph) (root : Nat) : Dominance :=
  ⟨g.size, g.reach root, (List.range g.size).map (g.reachAvoiding root)⟩

variable (m : Dominance)

def dominates (d b : Nat) : Bool :=
  m.reach.contains b && !(m.avoiding[d]?.getD m.reach).contains b

def dominators (b : Nat) : List Nat := (List.range m.size).filter (m.dominates · b)

def strictDominators (b : Nat) : List Nat := (m.dominators b).filter (· ≠ b)

def immediate? (b : Nat) : Option Nat :=
  let ds := m.strictDominators b
  ds.find? fun d => ds.all (m.dominates · d)

end Dominance

end LuaLift
