import LuaLift.Data.NatSet
import LuaLift.Failure
import LuaLift.Flow.Loops

namespace LuaLift

namespace Stmt

def liveBefore (kind : CellKind) (s : Stmt) (after : NatSet) : NatSet :=
  (after.eraseAll (s.writes kind)).insertAll (s.reads kind)

def liveBeforeEach (kind : CellKind) (last : NatSet) : List Stmt → NatSet × List NatSet
  | [] => (last, [])
  | s :: rest =>
    let (next, later) := liveBeforeEach kind last rest
    (s.liveBefore kind next, next :: later)

end Stmt

namespace Block

def livePoints (kind : CellKind) (b : Block) (out : NatSet) : NatSet × List NatSet :=
  Stmt.liveBeforeEach kind (out.insertAll (b.jump.reads kind)) b.body

end Block

structure Liveness where
  liveIn : List NatSet
  liveOut : List NatSet
  deriving DecidableEq, Repr

namespace Liveness

def before (l : Liveness) (b : BlockId) : NatSet := l.liveIn[b]?.getD ∅

def after (l : Liveness) (b : BlockId) : NatSet := l.liveOut[b]?.getD ∅

def empty (size : Nat) : Liveness := ⟨List.replicate size ∅, List.replicate size ∅⟩

def update (kind : CellKind) (p : Proto) (f : Flow) (l : Liveness) (b : BlockId) : Liveness :=
  let out := (f.successors b).foldl (fun s c => s ∪ l.before c) ∅
  match p.blocks[b]? with
  | none => l
  | some block => ⟨l.liveIn.set b (block.livePoints kind out).1, l.liveOut.set b out⟩

def sweep (kind : CellKind) (p : Proto) (f : Flow) (l : Liveness) : Liveness :=
  f.walk.postorder.foldl (update kind p f) l

def settle (kind : CellKind) (p : Proto) (f : Flow) : Nat → Liveness → Option Liveness
  | 0, _ => none
  | n + 1, l =>
    let m := sweep kind p f l
    if m = l then some m else settle kind p f n m

def solve (kind : CellKind) (p : Proto) (rounds : Nat) : Except Reason Liveness :=
  match settle kind p (.of p) rounds (empty p.blocks.length) with
  | some l => .ok l
  | none => .error (.unsettled rounds)

def points (kind : CellKind) (p : Proto) (l : Liveness) (b : BlockId) : List NatSet :=
  match p.blocks[b]? with
  | none => []
  | some block =>
    let (first, later) := block.livePoints kind (l.after b)
    first :: later

end Liveness

end LuaLift
