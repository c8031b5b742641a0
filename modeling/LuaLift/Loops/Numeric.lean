import LuaLift.Loops.Idiom

/-!
The numeric `for` idiom: counter, limit and step lie in three registers in a row. The header compares
counter and limit, the latch adds the step, and the body starts by copying the counter to the fourth.
-/

namespace LuaLift

def BinaryOp.isOrdering : BinaryOp → Bool
  | lt | le | gt | ge => true
  | _ => false

def BinaryOp.mirrored : BinaryOp → BinaryOp
  | le => ge
  | ge => le
  | lt => gt
  | gt => lt
  | op => op

structure CounterTest where
  limit : Cell
  comparison : BinaryOp
  negated : Bool
  deriving Repr, DecidableEq

namespace Expr

def counterTest? (counter : Cell) : Expr → Option CounterTest
  | unary .not e => (e.counterTest? counter).map fun t => { t with negated := !t.negated }
  | binary op a b =>
    if !op.isOrdering then none
    else
      match a.cell?, b.cell? with
      | some x, some y =>
        if x = counter then some ⟨y, op, false⟩
        else if y = counter then some ⟨x, op.mirrored, false⟩
        else none
      | _, _ => none
  | _ => none

def numericValue? : Expr → Option Float
  | constant (.number x) => some x
  | unary .minus e => e.numericValue?.map (-·)
  | _ => none

def stepOf? (counter : Cell) : Expr → Option Cell
  | binary .add a b => if a.cell? = some counter then b.cell? else none
  | _ => none

end Expr

/-- A loop counts up for a step that is not negative, and down otherwise. A step that is not known
counts up. -/
def directionMatches (comparison : BinaryOp) (step : Expr) : Bool :=
  match comparison, step.numericValue? with
  | .le, none => true
  | .le, some x => decide (0 ≤ x)
  | .ge, some x => decide (x < 0)
  | _, _ => false

structure NumericLoop where
  latch : BlockId
  preheader : BlockId
  setup : Nat
  bodyEntry : BlockId
  follow : BlockId
  variableCell : Cell
  start : Expr
  stop : Expr
  step : Expr
  deriving Repr

namespace NumericLoop

def increment? (latch : Block) : Option (Cell × Cell) :=
  (latch.body.getLast?.bind Stmt.singleCell?).bind fun (c, e) => (e.stepOf? c).map (c, ·)

def copy? (slotOf : SlotOf) (counter : Cell) (body : List Stmt) : Option Cell :=
  (body.head?.bind Stmt.singleCell?).bind fun (v, e) =>
    if e.cell? = some counter && adjacent slotOf counter v 3 then some v else none

structure Counters where
  latch : BlockId
  counter : Cell
  step : Cell
  test : CounterTest
  deriving Repr

def counters? (slotOf : SlotOf) (p : Proto) (l : NaturalLoop) : Option Counters := do
  let latch ← l.singleLatch?
  let block ← p.blocks[latch]?
  guard (block.jump.targets = [l.header] && (p.body l.header).isEmpty)
  let (counter, step) ← increment? block
  let test ← (p.jump l.header).condition?.bind (·.counterTest? counter)
  guard (adjacent slotOf counter test.limit 1 && adjacent slotOf counter step 2)
  return ⟨latch, counter, step, test⟩

def recognize (slotOf : SlotOf) (checkReads : Bool) (p : Proto) (f : Flow) (l : NaturalLoop) :
    Recognition NumericLoop :=
  .orNone (counters? slotOf p l) fun c =>
  .orNear .counterTestStays (l.exitTest? (p.jump l.header)) fun exit =>
  .provided .strictTest (c.test.comparison == .le || c.test.comparison == .ge) <|
  .provided .testInverted (exit.staysOnTrue != c.test.negated) <|
  .orNear .noCopy (copy? slotOf c.counter (p.body exit.inside)) fun v =>
  .orNear .noPreheader (l.preheader? p f) fun preheader =>
  .orNear .countersUnset
    (initializers? (p.body preheader) [c.counter, c.test.limit, c.step]) fun init =>
  match init.values with
  | [start, stop, step] =>
    .provided .countersRead
      (!checkReads || p.readCount c.counter == 3 && p.readCount c.test.limit == 1 &&
        p.readCount c.step == 1) <|
    .provided .stepSign (directionMatches c.test.comparison step) <|
    .full ⟨c.latch, preheader, init.statements, exit.inside, exit.outside, v, start, stop, step⟩
  | _ => .near .initializerCount

def strip (n : NumericLoop) (p : Proto) : Proto :=
  ((p.dropLast n.latch 1).dropFirst n.bodyEntry).dropLast n.preheader n.setup

end NumericLoop

/-- Slots that hold the visible variable of a numeric loop, with the block where it is copied. Other
reads of the hidden registers do not matter here. -/
def loopVariableCopies (p : Proto) (f : Flow) : List (BlockId × Slot) :=
  (f.loops f.dominance).filterMap fun l =>
    match NumericLoop.recognize slotOfSlot false p f l with
    | .full n => (slotOfSlot n.variableCell).map (n.bodyEntry, ·)
    | _ => none

end LuaLift
