import LuaLift.Data.Partition
import LuaLift.Slots.Definitions
import LuaLift.Slots.LiveRange

/-!
Webs: definitions that reach a common read belong to one variable. Webs of one debug name are merged
too, as long as their live ranges do not meet.
-/

namespace LuaLift

def Block.slotReads (b : Block) : List (List Slot) :=
  b.body.map (·.readSlots) ++ [b.jump.reads .slot]

namespace Definitions

variable (ds : Definitions) (p : Proto) (f : Flow) (r : Reaching)

def states (b : BlockId) : List NatSet := ds.alongFrom b 0 (r.atEntry b) (p.body b)

def readsIn (b : BlockId) : List (Slot × List Nat) :=
  match p.blocks[b]? with
  | none => []
  | some block =>
    ((ds.states p r b).zip block.slotReads).flatMap fun (state, reads) =>
      reads.map fun s => (s, ds.ofSlot state s)

def undefinedRead? : Option (BlockId × Slot) :=
  f.order.findSome? fun b =>
    ((ds.readsIn p r b).find? (·.2.isEmpty)).map fun (s, _) => (b, s)

def links : List (Nat × Nat) :=
  f.order.flatMap fun b => (ds.readsIn p r b).flatMap fun (_, defs) => defs.zip defs.tail

def readWebs : Partition := (Partition.discrete ds.size).unionAll (ds.links p f r)

def livePoints (l : Liveness) (webs : Partition) : List (Nat × Point) :=
  f.order.flatMap fun b =>
    ((ds.states p r b).zip (LiveRange.atPoints .slot p l b)).flatMap fun (state, live, point) =>
      live.toList.filterMap fun s => (ds.ofSlot state s).head?.map fun d => (webs.root d, point)

def debugIndex? (d : Nat) : Option Nat := do
  let s ← ds.slot? d
  let b ← ds.block? d
  let block ← p.blocks[b]?
  p.debugNames.findIdx? fun n => n.slot = s && n.covers block

def namedWebs (webs : Partition) (name : Nat) : List Nat :=
  (((List.range ds.size).filter fun d => ds.debugIndex? p d == some name).map webs.root).eraseDups

/-- Joins to the first web those of the others that do not meet what is joined so far. -/
def mergeNamed (rangeOf : Nat → List Point) (first : Nat) :
    List Point → List Nat → Partition → Partition
  | _, [], webs => webs
  | range, w :: rest, webs =>
    if overlap range (rangeOf w) then mergeNamed rangeOf first range rest webs
    else mergeNamed rangeOf first (range ++ rangeOf w) rest (webs.union first w)

def mergeGroup (rangeOf : Nat → List Point) (webs : Partition) : List Nat → Partition
  | [] => webs
  | w :: rest => mergeNamed rangeOf w (rangeOf w) rest webs

def webs (l : Liveness) : Partition :=
  let webs := ds.readWebs p f r
  let points := ds.livePoints p f r l webs
  let rangeOf := fun w => (points.filter (·.1 = w)).map (·.2)
  ((List.range p.debugNames.length).map (ds.namedWebs p webs)).foldl (mergeGroup rangeOf) webs

end Definitions

end LuaLift
