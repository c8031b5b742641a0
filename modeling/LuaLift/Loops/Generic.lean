import LuaLift.Loops.Idiom

/-!
The generic `for` idiom: generator, state and control lie in three registers in a row, and the visible
variables right behind them. The header calls the generator and tests the first variable for nil, the
latch copies it to the control.
-/

namespace LuaLift

namespace Expr

def isNil : Expr → Bool
  | constant .nil => true
  | _ => false

def nilTest? : Expr → Option (Cell × Bool)
  | unary .not e => e.nilTest?.map fun (c, holds) => (c, !holds)
  | binary .eq a b => nilOperand? a b |>.map (·, false)
  | binary .ne a b => nilOperand? a b |>.map (·, true)
  | _ => none
where
  nilOperand? (a b : Expr) : Option Cell :=
    if b.isNil then a.cell? else if a.isNil then b.cell? else none

end Expr

structure GenericLoop where
  header : BlockId
  latch : BlockId
  preheader : BlockId
  setup : Nat
  bodyEntry : BlockId
  follow : BlockId
  variableCells : List Cell
  iterators : List Expr
  deriving Repr

namespace GenericLoop

structure Advance where
  generator : Cell
  state : Cell
  control : Cell
  results : List Cell
  deriving Repr, DecidableEq

def advance? : List Stmt → Option Advance
  | [.assign ⟨targets, [.call g [s, c]], _, _⟩] => do
    return ⟨← g.cell?, ← s.cell?, ← c.cell?, ← targets.mapM Expr.cell?⟩
  | _ => none

def Advance.adjoins (slotOf : SlotOf) (a : Advance) : Bool :=
  adjacent slotOf a.generator a.state 1 && adjacent slotOf a.generator a.control 2 &&
    a.results.zipIdx.all fun (c, i) => adjacent slotOf a.generator c (i + 3)

structure Iteration where
  latch : BlockId
  step : Advance
  holdsForValue : Bool
  deriving Repr, DecidableEq

def iteration? (slotOf : SlotOf) (p : Proto) (l : NaturalLoop) : Option Iteration := do
  let latch ← l.singleLatch?
  let block ← p.blocks[latch]?
  guard (block.jump.targets = [l.header])
  let (control, value) ← block.body.getLast?.bind Stmt.singleCell?
  let step ← advance? (p.body l.header)
  let (tested, holds) ← (p.jump l.header).condition?.bind Expr.nilTest?
  guard (step.control = control && value.cell? = some tested && step.results.head? = some tested)
  guard (step.adjoins slotOf)
  return ⟨latch, step, holds⟩

def recognize (slotOf : SlotOf) (p : Proto) (f : Flow) (l : NaturalLoop) :
    Recognition GenericLoop :=
  .orNone (iteration? slotOf p l) fun i =>
  .orNear .iteratorTestStays (l.exitTest? (p.jump l.header)) fun exit =>
  .provided .loopsOnNil (exit.staysOnTrue == i.holdsForValue) <|
  .orNear .noPreheader (l.preheader? p f) fun preheader =>
  .orNear .iteratorsUnset
    (initializers? (p.body preheader) [i.step.generator, i.step.state, i.step.control]) fun init =>
  .provided .iteratorsRead
    (p.readCount i.step.generator == 1 && p.readCount i.step.state == 1 &&
      p.readCount i.step.control == 1) <|
  .full ⟨l.header, i.latch, preheader, init.statements, exit.inside, exit.outside, i.step.results,
    init.values⟩

def strip (g : GenericLoop) (p : Proto) : Proto :=
  ((p.dropLast g.latch 1).clear g.header).dropLast g.preheader g.setup

end GenericLoop

end LuaLift
