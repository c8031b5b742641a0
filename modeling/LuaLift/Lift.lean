import LuaLift.Proto.Check
import LuaLift.Proto.Simplify
import LuaLift.Proto.TestChain
import LuaLift.Region.Build
import LuaLift.Slots.Inline
import LuaLift.Slots.Resolve
import LuaLift.Tree.Declare
import LuaLift.Tree.Scope
import LuaLift.Tree.Tidy

/-!
Lifting a function: check it, simplify its jumps, inline and resolve its slots, build the tree, declare
its variables, tidy it and check the result. Nested functions are lifted one by one.
-/

namespace LuaLift

structure Options where
  /-- Sweeps of the slot analyses at most. -/
  maxRounds : Nat := 100
  skipInlining : Bool := false
  skipTestFolding : Bool := false
  skipForLoops : Bool := false
  checkStages : Bool := false
  deriving Repr, DecidableEq

instance : Inhabited Options := ⟨{}⟩

namespace Proto

def foldedTests (p : Proto) : Proto :=
  let (q, k) := p.foldTests
  if k = 0 then q else q.clearUnreachable

def structure? (o : Options) (p : Proto) (t : Locals) : Except Reason Routine :=
  let p := if o.skipTestFolding then p else p.foldedTests
  let f := Flow.of p
  match f.sideEntry? f.dominance with
  | some (source, target) => .error (.irreducible target (.sideEntry source))
  | none =>
    let c := p.classify f t !o.skipForLoops
    (Plan.of c.proto f c.loops).build.map fun body =>
      { id := p.id
        parameters := (List.range c.locals.size).filter fun v => c.locals.kind? v = some .parameter
        variadic := p.variadic
        body
        locals := c.locals
        notes := c.notes
        children := [] }

end Proto

namespace Options

def gate (o : Options) (stage : Stage) (v : Option Violation) : Except Reason Unit :=
  match o.checkStages, v with
  | true, some v => .error (.violated stage v)
  | _, _ => .ok ()

def inlining (o : Options) (p : Proto) : Except Reason Proto :=
  if o.skipInlining then .ok p
  else do
    let (q, _) ← p.inlined o.maxRounds (.of p (.of p))
    o.gate .inlining q.violation?
    return q

def stages (o : Options) (p : Proto) : Except Reason Routine := do
  let (p, _) := p.simplify
  o.gate .simplification p.violation?
  let p ← o.inlining p
  let (p, t) ← p.resolve o.maxRounds
  o.gate .resolution p.violation?
  let r ← p.structure? o t
  let r := r.declare
  o.gate .declaration r.violation?
  let (r, _) := r.tidy
  match r.violation? with
  | some v => throw (.violated .tidying v)
  | none => return r

end Options

namespace Proto

def liftOwn (o : Options) (p : Proto) : Except Failure Routine :=
  match p.violation? <|> p.prototypeViolation? with
  | some v => .error ⟨p.id, .malformed v⟩
  | none => (o.stages { p with children := [] }).mapError (⟨p.id, ·⟩)

mutual

def lift (o : Options) : Proto → Except Failure Routine
  | ⟨id, parameters, variadic, blocks, debugNames, children⟩ =>
    match liftOwn o ⟨id, parameters, variadic, blocks, debugNames, children⟩ with
    | .error e => .error e
    | .ok r => .ok { r with children := liftAll o children }

def liftAll (o : Options) : List Proto → List (Except Failure Routine)
  | [] => []
  | p :: rest => p.lift o :: liftAll o rest

end

end Proto

end LuaLift
