import LuaLift.Slots.Webs

namespace LuaLift

namespace Stmt

def bindTarget (read : Slot → Expr) (written : Nat → Option LocalId) (e : Expr) (i : Nat) : Expr :=
  match e with
  | .slot s => ((written i).map Expr.var).getD (.slot s)
  | .index t k => .index (t.bindSlots read) (k.bindSlots read)
  | e => e

def bindSlots (read : Slot → Expr) (written : Nat → Option LocalId) : Stmt → Stmt
  | assign a =>
    assign { a with
      targets := a.targets.zipIdx.map fun (e, i) => bindTarget read written e i
      values := Expr.bindSlotsList read a.values }
  | call f as l => call (f.bindSlots read) (Expr.bindSlotsList read as) l
  | ret vs l => ret (Expr.bindSlotsList read vs) l
  | declare vs => declare vs

end Stmt

namespace Definitions

variable (ds : Definitions) (p : Proto) (webs : Partition)

def roots : List Nat := (List.range ds.size).filter fun d => webs.root d = d

def localOf? (d : Nat) : Option LocalId := (ds.roots webs).idxOf? (webs.root d)

def nameOfRoot (d : Nat) (s : Slot) : Option String :=
  let block? := if ds.isParameter d then p.blocks.head? else ds.block? d >>= (p.blocks[·]?)
  (block?.bind (p.debugName? s)).map (·.name)

def localOfRoot (d : Nat) (s : Slot) (earlier : Nat) : Local :=
  if ds.isParameter d then ⟨s, (ds.nameOfRoot p d s).getD ("arg" ++ toString s), .parameter⟩
  else
    let base := (ds.nameOfRoot p d s).getD ("slot" ++ toString s)
    ⟨s, if earlier = 0 then base else base ++ "_" ++ toString earlier, .plain⟩

def locals : Locals :=
  let slots := (ds.roots webs).filterMap fun d => (ds.slot? d).map (d, ·)
  ⟨slots.zipIdx.map fun ((d, s), i) =>
    ds.localOfRoot p d s ((slots.take i).countP (·.2 = s))⟩

def read (state : NatSet) (s : Slot) : Expr :=
  (((ds.ofSlot state s).head?.bind (ds.localOf? webs)).map Expr.var).getD (.slot s)

def bindBlock (r : Reaching) (b : BlockId) (block : Block) : Block :=
  let states := ds.states p r b
  let stateAt := fun i => states[i]?.getD ∅
  { block with
    body := block.body.zipIdx.map fun (s, i) =>
      s.bindSlots (ds.read webs (stateAt i)) fun position =>
        (ds.number? (.target b i position)).bind (ds.localOf? webs)
    jump := block.jump.mapCondition (·.bindSlots (ds.read webs (stateAt block.body.length))) }

end Definitions

def Proto.resolve (p : Proto) (rounds : Nat) : Except Reason (Proto × Locals) := do
  let f := Flow.of p
  let l ← Liveness.solve .slot p rounds
  let ds := Definitions.of p f
  let r ← ds.reaching p f rounds
  match ds.undefinedRead? p f r with
  | some (b, s) => throw (.malformed (.undefinedSlot b s))
  | none =>
    let webs := ds.webs p f r l
    let blocks := p.blocks.zipIdx.map fun (block, b) =>
      if f.isReachable b then ds.bindBlock p webs r b block else block
    return ({ p with blocks }, ds.locals p webs)

end LuaLift
