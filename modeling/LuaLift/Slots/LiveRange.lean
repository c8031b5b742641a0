import LuaLift.Slots.Liveness

namespace LuaLift

abbrev Point := BlockId × Nat

def overlap (r s : List Point) : Bool := r.any s.contains

structure LiveRange where
  var : LocalId
  points : List Point
  deriving Repr, DecidableEq

namespace LiveRange

def interferes (r s : LiveRange) : Bool := overlap r.points s.points

def atPoints (kind : CellKind) (p : Proto) (l : Liveness) (b : BlockId) : List (NatSet × Point) :=
  (l.points kind p b).zipIdx.map fun (s, i) => (s, b, i)

def ofLiveness (p : Proto) (f : Flow) (l : Liveness) : List LiveRange :=
  let points := ((List.range f.size).filter f.isReachable).flatMap (atPoints .var p l)
  let vars := points.foldl (fun s q => s ∪ q.1) ∅
  vars.toList.map fun v => ⟨v, (points.filter (v ∈ ·.1)).map (·.2)⟩

end LiveRange

def Proto.liveRanges (p : Proto) (rounds : Nat) : Except Reason (List LiveRange) :=
  (Liveness.solve .var p rounds).map (LiveRange.ofLiveness p (.of p))

end LuaLift
