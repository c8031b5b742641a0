import LuaLift.Data.NatSet
import LuaLift.Failure
import LuaLift.Flow.Loops

namespace LuaLift

inductive Site where
  | parameter (s : Slot)
  | target (block : BlockId) (stmt position : Nat)
  deriving Repr, DecidableEq

structure Definition where
  site : Site
  slot : Slot
  deriving Repr, DecidableEq

namespace Site

def isParameter : Site → Bool
  | parameter _ => true
  | target .. => false

def block? : Site → Option BlockId
  | parameter _ => none
  | target b _ _ => some b

end Site

def Stmt.slotTargets : Stmt → List (Nat × Slot)
  | assign a => a.targets.zipIdx.filterMap fun (e, i) => e.slot?.map (i, ·)
  | _ => []

structure Definitions where
  list : List Definition
  deriving Repr, DecidableEq

namespace Definitions

def ofBlock (p : Proto) (b : BlockId) : List Definition :=
  (p.body b).zipIdx.flatMap fun (s, i) =>
    s.slotTargets.map fun (position, slot) => ⟨.target b i position, slot⟩

def of (p : Proto) (f : Flow) : Definitions :=
  ⟨(List.range p.parameters).map (fun s => ⟨.parameter s, s⟩) ++ f.order.flatMap (ofBlock p)⟩

variable (ds : Definitions)

def size : Nat := ds.list.length

def number? (site : Site) : Option Nat := ds.list.findIdx? (·.site = site)

def slot? (d : Nat) : Option Slot := ds.list[d]?.map (·.slot)

def block? (d : Nat) : Option BlockId := ds.list[d]?.bind (·.site.block?)

def isParameter (d : Nat) : Bool := (ds.list[d]?.map (·.site.isParameter)).getD false

def define (state : NatSet) (s : Slot) (d : Nat) : NatSet :=
  (state.filter fun e => ds.slot? e != some s).insert d

def transfer (b : BlockId) (i : Nat) (s : Stmt) (state : NatSet) : NatSet :=
  s.slotTargets.foldl
    (fun state (position, slot) =>
      match ds.number? (.target b i position) with
      | some d => ds.define state slot d
      | none => state)
    state

def alongFrom (b : BlockId) : Nat → NatSet → List Stmt → List NatSet
  | _, state, [] => [state]
  | i, state, s :: rest => state :: alongFrom b (i + 1) (ds.transfer b i s state) rest

def ofSlot (state : NatSet) (s : Slot) : List Nat :=
  (state.filter fun d => ds.slot? d == some s).toList

structure Reaching where
  entry : List NatSet
  exit : List NatSet
  deriving Repr, DecidableEq

namespace Reaching

def empty (size : Nat) : Reaching := ⟨List.replicate size ∅, List.replicate size ∅⟩

def atEntry (r : Reaching) (b : BlockId) : NatSet := r.entry[b]?.getD ∅

def atExit (r : Reaching) (b : BlockId) : NatSet := r.exit[b]?.getD ∅

end Reaching

def parameters : NatSet := .ofList ((List.range ds.size).filter ds.isParameter)

def update (p : Proto) (f : Flow) (r : Reaching) (b : BlockId) : Reaching :=
  let start := if b = 0 then ds.parameters else ∅
  let entry := (f.predecessors b).foldl (fun s a => s ∪ r.atExit a) start
  let exit := (p.body b).zipIdx.foldl (fun s (t, i) => ds.transfer b i t s) entry
  ⟨r.entry.set b entry, r.exit.set b exit⟩

def sweep (p : Proto) (f : Flow) (r : Reaching) : Reaching := f.order.foldl (ds.update p f) r

def settle (p : Proto) (f : Flow) : Nat → Reaching → Option Reaching
  | 0, _ => none
  | n + 1, r =>
    let q := ds.sweep p f r
    if q = r then some q else settle p f n q

def reaching (p : Proto) (f : Flow) (rounds : Nat) : Except Reason Reaching :=
  match ds.settle p f rounds (.empty p.blocks.length) with
  | some r => .ok r
  | none => .error (.unsettled rounds)

end Definitions

end LuaLift
