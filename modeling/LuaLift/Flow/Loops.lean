import LuaLift.Flow.Graph

namespace LuaLift

structure NaturalLoop where
  header : BlockId
  latches : List BlockId
  body : List BlockId
  deriving Repr, DecidableEq

namespace Flow

variable (f : Flow)

def predecessorGraph : Digraph := ⟨(List.range f.size).map f.predecessors⟩

def loopBody (header : BlockId) (latches : List BlockId) : List BlockId :=
  let inside := (f.predecessorGraph.walkIn ((List.range f.size).erase header) latches).postorder
  (List.range f.size).filter fun b => b = header || inside.contains b

def loopAt (edges : List (BlockId × BlockId)) (header : BlockId) : NaturalLoop :=
  let latches := (edges.filter (·.2 = header)).map (·.1)
  ⟨header, latches, f.loopBody header latches⟩

/-- One loop per header, smaller bodies first, then headers in reverse postorder. -/
def loops (m : Dominance) : List NaturalLoop :=
  let edges := f.backEdges m
  let headers := f.order.filter fun h => edges.any (·.2 = h)
  (headers.map (f.loopAt edges)).mergeSort fun a b => a.body.length ≤ b.body.length

end Flow

namespace NaturalLoop

def contains (l : NaturalLoop) (b : BlockId) : Bool := l.body.contains b

def exits (l : NaturalLoop) (f : Flow) : List (BlockId × BlockId) :=
  l.body.flatMap fun b => ((f.successors b).filter (!l.contains ·)).map (b, ·)

end NaturalLoop

end LuaLift
