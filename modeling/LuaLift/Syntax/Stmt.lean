import LuaLift.Syntax.Expr

namespace LuaLift

structure Assignment where
  targets : List Expr
  values : List Expr
  declares : Bool := false
  line : Nat := 0
  deriving Repr, Inhabited

inductive Stmt where
  | assign (a : Assignment)
  | call (function : Expr) (arguments : List Expr) (line : Nat)
  | ret (values : List Expr) (line : Nat)
  | declare (vars : List LocalId)
  deriving Repr, Inhabited

def Expr.targetOperands : Expr → List Expr
  | .index t k => [t, k]
  | _ => []

namespace Stmt

def store (target value : Expr) : Stmt := assign ⟨[target], [value], false, 0⟩

def line : Stmt → Nat
  | assign a => a.line
  | call _ _ l | ret _ l => l
  | declare _ => 0

def isReturn : Stmt → Bool
  | ret .. => true
  | _ => false

/-- Evaluated expressions in order. Plain targets are not evaluated. -/
def operands : Stmt → List Expr
  | assign a => a.targets.flatMap Expr.targetOperands ++ a.values
  | call f as _ => f :: as
  | ret vs _ => vs
  | declare _ => []

def reads (kind : CellKind) (s : Stmt) : List Nat := s.operands.flatMap (·.reads kind)

def readSlots (s : Stmt) : List Slot := s.reads .slot
def readVars (s : Stmt) : List LocalId := s.reads .var

def writes (kind : CellKind) : Stmt → List Nat
  | assign a => a.targets.filterMap (Expr.cellOf? kind)
  | _ => []

def writtenSlots (s : Stmt) : List Slot := s.writes .slot

def writtenVars : Stmt → List LocalId
  | declare vs => vs
  | s => s.writes .var

def singleSlot? : Stmt → Option (Slot × Expr)
  | assign ⟨[.slot s], [e], _, _⟩ => some (s, e)
  | _ => none

def substituteTarget (c : Cell) : Expr → Option Expr → Expr × Option Expr
  | .index t k, r =>
    let (t, r) := t.substitute c r
    let (k, r) := k.substitute c r
    (.index t k, r)
  | e, r => (e, r)

def substituteTargets (c : Cell) : List Expr → Option Expr → List Expr × Option Expr
  | [], r => ([], r)
  | e :: es, r =>
    let (e, r) := substituteTarget c e r
    let (es, r) := substituteTargets c es r
    (e :: es, r)

def substitute (c : Cell) : Stmt → Option Expr → Stmt × Option Expr
  | assign a, r =>
    let (targets, r) := substituteTargets c a.targets r
    let (values, r) := Expr.substituteList c a.values r
    (assign { a with targets, values }, r)
  | call f as l, r =>
    let (f, r) := f.substitute c r
    let (as, r) := Expr.substituteList c as r
    (call f as l, r)
  | ret vs l, r =>
    let (vs, r) := Expr.substituteList c vs r
    (ret vs l, r)
  | declare vs, r => (declare vs, r)

end Stmt

end LuaLift
