import LuaLift.Syntax.Stmt

/-!
A function as blocks of statements joined by jumps, before it has any nested construct. Block 0 is the
entry, and the slots below `parameters` are set there.
-/

namespace LuaLift

abbrev BlockId := Nat

inductive Jump where
  | always (target : BlockId)
  | branch (condition : Expr) (onTrue onFalse : BlockId)
  | leave
  deriving Repr, Inhabited

namespace Jump

def targets : Jump → List BlockId
  | always b => [b]
  | branch _ b c => [b, c]
  | leave => []

def condition? : Jump → Option Expr
  | branch e _ _ => some e
  | _ => none

def map (f : BlockId → BlockId) : Jump → Jump
  | always b => always (f b)
  | branch e b c => branch e (f b) (f c)
  | leave => leave

def mapCondition (f : Expr → Expr) : Jump → Jump
  | branch e b c => branch (f e) b c
  | j => j

def retarget (j : Jump) (source target : BlockId) : Jump :=
  j.map fun b => if b = source then target else b

def reads (kind : CellKind) (j : Jump) : List Nat :=
  (j.condition?.map (·.reads kind)).getD []

end Jump

structure Block where
  id : BlockId
  firstAddress : Nat := 0
  lastAddress : Nat := 0
  body : List Stmt := []
  jump : Jump
  deriving Repr, Inhabited

structure DebugName where
  slot : Slot
  name : String
  start : Nat
  stop : Nat
  deriving Repr, DecidableEq

def DebugName.covers (d : DebugName) (b : Block) : Bool :=
  b.firstAddress < d.stop && d.start ≤ b.lastAddress

structure Proto where
  id : Nat
  parameters : Nat := 0
  variadic : Bool := false
  blocks : List Block
  debugNames : List DebugName := []
  children : List Proto := []
  deriving Repr

namespace Proto

instance : Inhabited Proto := ⟨{ id := 0, blocks := [⟨0, 0, 0, [], .leave⟩] }⟩

def successors (p : Proto) (b : BlockId) : List BlockId :=
  (p.blocks[b]?.map (·.jump.targets)).getD []

def sources (p : Proto) (b : BlockId) : List BlockId :=
  p.blocks.flatMap fun c => (c.jump.targets.filter (· = b)).map fun _ => c.id

def body (p : Proto) (b : BlockId) : List Stmt := (p.blocks[b]?.map (·.body)).getD []

def jump (p : Proto) (b : BlockId) : Jump := (p.blocks[b]?.map (·.jump)).getD .leave

def debugName? (p : Proto) (s : Slot) (b : Block) : Option DebugName :=
  p.debugNames.find? fun d => d.slot = s && d.covers b

def modify (p : Proto) (b : BlockId) (f : Block → Block) : Proto :=
  { p with blocks := p.blocks.modify b f }

end Proto

end LuaLift
