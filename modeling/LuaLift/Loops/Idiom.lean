import LuaLift.Data.Total
import LuaLift.Flow.Loops
import LuaLift.Syntax.Locals

namespace LuaLift

inductive Mismatch where
  | counterTestStays
  | strictTest
  | testInverted
  | noCopy
  | noPreheader
  | countersUnset
  | initializerCount
  | countersRead
  | stepSign
  | iteratorTestStays
  | loopsOnNil
  | iteratorsUnset
  | iteratorsRead
  deriving Repr, DecidableEq

def Mismatch.message : Mismatch → String
  | counterTestStays => "counter test does not leave the loop"
  | strictTest => "counter test is a strict comparison"
  | testInverted => "counter test leaves the loop while the comparison holds"
  | noCopy => "body does not start by copying the counter"
  | noPreheader => "loop has no single preheader"
  | countersUnset => "counter, limit and step are not initialized before the loop"
  | initializerCount => "initializer count does not match"
  | countersRead => "hidden loop registers are read elsewhere"
  | stepSign => "counter test does not match the sign of the step"
  | iteratorTestStays => "iterator test does not leave the loop"
  | loopsOnNil => "iterator test keeps looping on nil"
  | iteratorsUnset => "iterator triple is not initialized before the loop"
  | iteratorsRead => "hidden iterator registers are read elsewhere"

inductive Recognition (α : Type) where
  | none
  | near (m : Mismatch)
  | full (a : α)
  deriving Repr

namespace Recognition

variable {α β : Type}

def orNone : Option α → (α → Recognition β) → Recognition β
  | .none, _ => .none
  | some a, k => k a

def orNear (m : Mismatch) : Option α → (α → Recognition β) → Recognition β
  | .none, _ => .near m
  | some a, k => k a

def provided (m : Mismatch) (b : Bool) (k : Recognition β) : Recognition β :=
  if b then k else .near m

end Recognition

abbrev SlotOf := Cell → Option Slot

def Locals.slotOf (t : Locals) : SlotOf
  | ⟨.slot, s⟩ => some s
  | ⟨.var, v⟩ => t.slot? v

def slotOfSlot : SlotOf
  | ⟨.slot, s⟩ => some s
  | ⟨.var, _⟩ => none

def adjacent (slotOf : SlotOf) (base other : Cell) (offset : Nat) : Bool :=
  match slotOf base, slotOf other with
  | some b, some o => b + offset == o
  | _, _ => false

def Stmt.single? : Stmt → Option (Expr × Expr)
  | assign ⟨[t], [e], _, _⟩ => some (t, e)
  | _ => none

def Stmt.singleCell? (s : Stmt) : Option (Cell × Expr) :=
  s.single?.bind fun (t, e) => t.cell?.map (·, e)

def Proto.readCount (p : Proto) (c : Cell) : Nat :=
  total (fun b => total (·.count c) (b.body.flatMap (·.operands) ++ b.jump.condition?.toList)) p.blocks

structure ExitTest where
  inside : BlockId
  outside : BlockId
  staysOnTrue : Bool
  deriving Repr, DecidableEq

namespace NaturalLoop

variable (l : NaturalLoop)

def exitTest? : Jump → Option ExitTest
  | .branch _ b c =>
    match l.contains b, l.contains c with
    | true, false => some ⟨b, c, true⟩
    | false, true => some ⟨c, b, false⟩
    | _, _ => none
  | _ => none

def singleLatch? : Option BlockId :=
  match l.latches with
  | [b] => some b
  | _ => none

def preheader? (p : Proto) (f : Flow) : Option BlockId :=
  match (f.predecessors l.header).filter fun b => !l.contains b with
  | [b] =>
    match p.jump b with
    | .always t => if t = l.header then some b else none
    | _ => none
  | _ => none

end NaturalLoop

structure Initializers where
  values : List Expr
  statements : Nat
  deriving Repr

def singleInitializers? : List Stmt → List Cell → Option (List Expr)
  | s :: ss, c :: cs =>
    match s.singleCell? with
    | some (t, e) =>
      if t = c ∧ e.count c = 0 then (singleInitializers? ss cs).map (e :: ·) else none
    | none => none
  | _, _ => some []

def separateInitializers? (body : List Stmt) (cells : List Cell) : Option Initializers :=
  if body.length < cells.length then none
  else
    (singleInitializers? (body.drop (body.length - cells.length)) cells).map (⟨·, cells.length⟩)

def jointInitializers? (body : List Stmt) (cells : List Cell) : Option Initializers :=
  match body.getLast? with
  | some (.assign a) =>
    if a.targets.map Expr.cell? = cells.map some ∧ 1 < cells.length then some ⟨a.values, 1⟩ else none
  | _ => none

/-- One assignment to all the cells, or one to each in order, none of which mentions its own cell. -/
def initializers? (body : List Stmt) (cells : List Cell) : Option Initializers :=
  jointInitializers? body cells <|> separateInitializers? body cells

namespace Proto

def dropLast (p : Proto) (b : BlockId) (n : Nat) : Proto :=
  p.modify b fun c => { c with body := c.body.take (c.body.length - n) }

def dropFirst (p : Proto) (b : BlockId) : Proto :=
  p.modify b fun c => { c with body := c.body.drop 1 }

def clear (p : Proto) (b : BlockId) : Proto := p.modify b fun c => { c with body := [] }

end Proto

end LuaLift
