import LuaLift.Failure
import LuaLift.Flow.Loops

namespace LuaLift

def Stmt.isDeclaration : Stmt → Bool
  | .declare _ => true
  | .assign a => a.declares
  | _ => false

def Block.returnViolation? (index : BlockId) (b : Block) : Option Violation :=
  (b.body.findIdx? Stmt.isReturn).bind fun i =>
    if i + 1 ≠ b.body.length then some (.misplacedReturn index)
    else if b.jump.targets.isEmpty then none
    else some (.returnWithSuccessor index)

def Block.violation? (count index : BlockId) (b : Block) : Option Violation :=
  if b.id ≠ index then some (.blockIdMismatch index b.id) else
    ((b.jump.targets.find? (count ≤ ·)).map (.danglingTarget index))
      <|> b.returnViolation? index
      <|> (if b.body.any Stmt.isDeclaration then some (.unexpectedDeclaration index) else none)

def firstUndefined? (defined : Slot → Bool) : List Stmt → List Slot → Option Slot
  | [], last => last.find? fun s => !defined s
  | s :: rest, last =>
    (s.readSlots.find? fun r => !defined r) <|>
      firstUndefined? (fun r => defined r || s.writtenSlots.contains r) rest last

namespace Proto

def ancestors (f : Flow) (b : BlockId) : List BlockId :=
  (f.predecessorGraph.walkIn (List.range f.size) (f.predecessors b)).postorder

def mayBeDefined (p : Proto) (ancestors : List BlockId) (s : Slot) : Bool :=
  s < p.parameters || ancestors.any fun a => (p.body a).any (·.writtenSlots.contains s)

def undefinedSlot? (p : Proto) (f : Flow) : Option (BlockId × Slot) :=
  f.order.findSome? fun b =>
    (firstUndefined? (p.mayBeDefined (ancestors f b)) (p.body b) ((p.jump b).reads .slot)).map (b, ·)

def structuralViolation? (p : Proto) : Option Violation :=
  if p.blocks.isEmpty then some .emptyFunction
  else p.blocks.zipIdx.findSome? fun (b, i) => b.violation? p.blocks.length i

def violation? (p : Proto) : Option Violation :=
  p.structuralViolation? <|> (p.undefinedSlot? (.of p)).map fun (b, s) => .undefinedSlot b s

def instantiated (b : Block) : List Nat :=
  (b.body.flatMap (·.operands)).flatMap fun e =>
    e.nodes.filterMap fun
      | .closure q _ => some q
      | _ => none

def prototypeViolation? (p : Proto) : Option Violation :=
  p.blocks.findSome? fun b =>
    ((instantiated b).find? (p.children.length ≤ ·)).map (.missingPrototype b.id)

end Proto

end LuaLift
