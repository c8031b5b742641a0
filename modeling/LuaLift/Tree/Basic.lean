import LuaLift.Failure
import LuaLift.Loops.Shape

namespace LuaLift

inductive Node where
  | stmt (s : Stmt)
  | scope (body : List Node)
  | ifThen (condition : Expr) (body : List Node)
  | ifElse (condition : Expr) (onTrue onFalse : List Node)
  | whileDo (condition : Expr) (body : List Node)
  | repeatUntil (body : List Node) (condition : Expr)
  | numericFor (v : LocalId) (start stop step : Expr) (body : List Node)
  | genericFor (vs : List LocalId) (iterators : List Expr) (body : List Node)
  | brk
  deriving Repr

abbrev Body := List Node

namespace Node

instance : Inhabited Node := ⟨brk⟩

def isLoop : Node → Bool
  | whileDo .. | repeatUntil .. | numericFor .. | genericFor .. => true
  | _ => false

def bodies : Node → List Body
  | stmt _ | brk => []
  | scope b | ifThen _ b | whileDo _ b | repeatUntil b _ | numericFor _ _ _ _ b | genericFor _ _ b =>
    [b]
  | ifElse _ a b => [a, b]

def withBodies (g : Nat → Body → Body) : Node → Node
  | stmt s => stmt s
  | brk => brk
  | scope b => scope (g 0 b)
  | ifThen c b => ifThen c (g 0 b)
  | ifElse c a b => ifElse c (g 0 a) (g 1 b)
  | whileDo c b => whileDo c (g 0 b)
  | repeatUntil b c => repeatUntil (g 0 b) c
  | numericFor v x y z b => numericFor v x y z (g 0 b)
  | genericFor vs es b => genericFor vs es (g 0 b)

def condition? : Node → Option Expr
  | ifThen c _ | ifElse c _ _ | whileDo c _ | repeatUntil _ c => some c
  | _ => none

def expressions : Node → List Expr
  | stmt s => s.operands
  | scope _ | brk => []
  | ifThen c _ | ifElse c _ _ | whileDo c _ | repeatUntil _ c => [c]
  | numericFor _ start stop step _ => [start, stop, step]
  | genericFor _ iterators _ => iterators

def definedVars : Node → List LocalId
  | stmt s => s.writtenVars
  | numericFor v _ _ _ _ => [v]
  | genericFor vs _ _ => vs
  | _ => []

mutual

def isExit : Node → Bool
  | brk => true
  | stmt s => s.isReturn
  | scope b => endsInExit b
  | ifElse _ a b => endsInExit a && endsInExit b
  | _ => false

def endsInExit : List Node → Bool
  | [] => false
  | [n] => n.isExit
  | _ :: n :: rest => endsInExit (n :: rest)

end

mutual

def nodes : Node → List Node
  | stmt s => [stmt s]
  | brk => [brk]
  | scope b => scope b :: nodesOf b
  | ifThen c b => ifThen c b :: nodesOf b
  | ifElse c a b => ifElse c a b :: (nodesOf a ++ nodesOf b)
  | whileDo c b => whileDo c b :: nodesOf b
  | repeatUntil b c => repeatUntil b c :: nodesOf b
  | numericFor v x y z b => numericFor v x y z b :: nodesOf b
  | genericFor vs es b => genericFor vs es b :: nodesOf b

def nodesOf : List Node → List Node
  | [] => []
  | n :: rest => n.nodes ++ nodesOf rest

end

end Node

structure Routine where
  id : Nat
  parameters : List LocalId
  variadic : Bool
  body : Body
  locals : Locals
  notes : List Note
  children : List (Except Failure Routine)

instance : Inhabited Routine := ⟨⟨0, [], false, [], ∅, [], []⟩⟩

end LuaLift
