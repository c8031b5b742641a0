import LuaLift.Flow.Dominance
import LuaLift.Proto.Basic

/-!
The flow graph of a block function: its digraph with the walk from the entry, and what dominance says
about it. Back edges go to a dominator; what is left of a reducible graph without them has no cycle.
-/

namespace LuaLift

/-- The targets of the last block that carries each id; missing targets are dropped. -/
def Proto.digraph (p : Proto) : Digraph :=
  ⟨(List.range p.blocks.length).map fun b =>
    (((p.blocks.reverse.find? (·.id = b)).map (·.jump.targets)).getD []).filter
      (· < p.blocks.length)⟩

structure Flow where
  graph : Digraph
  walk : Walk
  walk_eq : walk = graph.walkFrom 0
  deriving Repr

namespace Flow

def ofDigraph (g : Digraph) : Flow := ⟨g, g.walkFrom 0, rfl⟩

def of (p : Proto) : Flow := ofDigraph p.digraph

variable (f : Flow)

def size : Nat := f.graph.size

def successors (b : BlockId) : List BlockId := f.graph.succ b

def order : List BlockId := f.walk.postorder.reverse

def isReachable (b : BlockId) : Bool := f.walk.postorder.contains b

def position? (b : BlockId) : Option Nat := f.order.idxOf? b

def predecessors (b : BlockId) : List BlockId := f.order.filter fun a => (f.successors a).contains b

def dominance : Dominance := .of f.graph 0

/-- The first edge of the walk that closes a cycle without passing through its target before. -/
def sideEntry? (m : Dominance) : Option (BlockId × BlockId) :=
  f.walk.retreating.find? fun e => !m.dominates e.2 e.1

def isBackEdge (m : Dominance) (source target : BlockId) : Bool :=
  (f.successors source).contains target && m.dominates target source

def backEdges (m : Dominance) : List (BlockId × BlockId) :=
  f.order.flatMap fun a => ((f.successors a).filter (m.dominates · a)).map (a, ·)

def forward (m : Dominance) (b : BlockId) : List BlockId :=
  (f.successors b).filter fun c => !m.dominates c b

/-- The forward edges turned round. One node more, numbered by the size, stands for the end: it is
entered from blocks without a forward successor and from sources of back edges. -/
def reversed (m : Dominance) : Digraph :=
  let forwards := f.order.map fun b => (b, f.forward m b)
  let sourcesOf := fun c => (forwards.filter (·.2.contains c)).map (·.1)
  let ends := forwards.filter fun (b, cs) => cs.isEmpty || cs.length ≠ (f.successors b).length
  ⟨(List.range f.size).map sourcesOf ++ [ends.map (·.1)]⟩

def mergePoints (m : Dominance) : List (Option BlockId) :=
  let post := Dominance.of (f.reversed m) f.size
  (List.range f.size).map fun b =>
    if f.isReachable b then (post.immediate? b).filter (· ≠ f.size) else none

end Flow

end LuaLift
