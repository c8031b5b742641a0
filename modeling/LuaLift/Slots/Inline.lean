import LuaLift.Data.Total
import LuaLift.Loops.Numeric
import LuaLift.Slots.Liveness

/-!
Inlining of slots that are written once for one use: a plain write goes into the statement or jump right
after it when that reads the slot exactly once and nothing reads it later. Runs of such writes are taken
up from the back. A value that reads mutable state does not move past a call.
-/

namespace LuaLift

structure Protected where
  parameters : Nat
  pairs : List (BlockId × Slot)
  deriving Repr, DecidableEq

namespace Protected

def contains (r : Protected) (b : BlockId) (s : Slot) : Bool :=
  s < r.parameters || r.pairs.contains (b, s)

/-- Slots with a debug name in the block, or captured by a closure in one of its statements. -/
def ofBlock (p : Proto) (b : Block) : List (BlockId × Slot) :=
  ((p.debugNames.filter (·.covers b)).map (·.slot) ++
    (b.body.flatMap (·.operands)).flatMap (·.capturedSlots)).map (b.id, ·)

def of (p : Proto) (f : Flow) : Protected :=
  ⟨p.parameters, p.blocks.flatMap (ofBlock p) ++ loopVariableCopies p f⟩

end Protected

def endsWith (s : Slot) (es : List Expr) : Bool := es.getLast?.bind Expr.slot? == some s

def readsAtListTail (s : Slot) (operands : List Expr) : Bool :=
  (Expr.nodesList operands).any fun
    | .call _ as => endsWith s as
    | .table as _ => endsWith s as
    | _ => false

def callsBefore (s : Slot) (operands : List Expr) : Bool :=
  ((Expr.evaluatedList operands).takeWhile fun e => e.slot? != some s).any Expr.isCall

/-- Whether a value written to a slot can be evaluated by the operands that come right after instead;
`dead` says that nothing reads the slot later. -/
def canInline (s : Slot) (e : Expr) (operands : List Expr) (dead : Bool) : Bool :=
  total (·.count ⟨.slot, s⟩) operands == 1
    && !operands.any (·.capturedSlots.contains s)
    && dead
    && !(e.readsMutableState && callsBefore s operands)
    && !(e.isMultiValue && readsAtListTail s operands)

namespace Stmt

def takesAll (s : Slot) : Stmt → Bool
  | call _ as _ => endsWith s as
  | ret vs _ => endsWith s vs
  | assign a => a.values.length < a.targets.length && endsWith s a.values
  | declare _ => false

def accepts (dead : Slot → Bool) (s : Slot) (e : Expr) (t : Stmt) : Bool :=
  canInline s e t.operands (t.writtenSlots.contains s || dead s)
    && !(e.isMultiValue && t.takesAll s)

def take (s : Slot) (e : Expr) (t : Stmt) : Stmt := (t.substitute ⟨.slot, s⟩ (some e)).1

end Stmt

namespace Jump

def accepts (out : NatSet) (s : Slot) (e : Expr) (j : Jump) : Bool :=
  canInline s e j.condition?.toList (s ∉ out)

def take (s : Slot) (e : Expr) (j : Jump) : Jump :=
  j.mapCondition fun c => (c.substitute ⟨.slot, s⟩ (some e)).1

end Jump

def deadAfter (out : NatSet) (j : Jump) (s : Slot) : List Stmt → Bool
  | [] => !(j.reads .slot).contains s && s ∉ out
  | t :: rest =>
    if t.readSlots.contains s then false
    else if t.writtenSlots.contains s then true
    else deadAfter out j s rest

structure Absorbed (α : Type) where
  kept : List Stmt
  consumer : α
  taken : Nat

/-- A consumer takes up the writes before it, given last first, as long as it accepts them. -/
def absorb {α : Type} (accepts : Slot → Expr → α → Bool) (take : Slot → Expr → α → α) :
    List Stmt → α → Absorbed α
  | [], c => ⟨[], c, 0⟩
  | w :: before, c =>
    match w.singleSlot? with
    | some (s, e) =>
      if accepts s e c then
        let r := absorb accepts take before (take s e c)
        { r with taken := r.taken + 1 }
      else ⟨w :: before, c, 0⟩
    | none => ⟨w :: before, c, 0⟩

namespace Block

def inlineStmts (guarded : Slot → Bool) (out : NatSet) (j : Jump) :
    List Stmt → List Stmt → List Stmt × Nat
  | done, [] => (done, 0)
  | done, t :: rest =>
    let accepts := fun s e t => !guarded s && Stmt.accepts (deadAfter out j · rest) s e t
    let r := absorb accepts Stmt.take done t
    let later := inlineStmts guarded out j (r.consumer :: r.kept) rest
    (later.1, r.taken + later.2)

def inlineCounted (guarded : Slot → Bool) (out : NatSet) (b : Block) : Block × Nat :=
  let accepts := fun s e j => !guarded s && Jump.accepts out s e j
  let stmts := inlineStmts guarded out b.jump [] b.body
  let r := absorb accepts Jump.take stmts.1 b.jump
  ({ b with body := r.kept.reverse, jump := r.consumer }, stmts.2 + r.taken)

def inline (guarded : Slot → Bool) (out : NatSet) (b : Block) : Block := (b.inlineCounted guarded out).1

end Block

namespace Proto

def inline (p : Proto) (l : Liveness) (r : Protected) : Proto × Nat :=
  let f := Flow.of p
  let results := p.blocks.map fun b =>
    if f.isReachable b.id then b.inlineCounted (r.contains b.id) (l.after b.id) else (b, 0)
  ({ p with blocks := results.map (·.1) }, total (·.2) results)

def inlined (p : Proto) (rounds : Nat) (r : Protected) : Except Reason (Proto × Nat) :=
  (Liveness.solve .slot p rounds).map (p.inline · r)

end Proto

end LuaLift
