import LuaLift.Tree.Basic

namespace LuaLift

/-- Variables declared so far anywhere, and those visible here. -/
structure Scope where
  declared : List LocalId
  visible : List LocalId
  deriving Repr, DecidableEq

namespace Scope

abbrev Checked := Except Violation Scope

def empty : Scope := ⟨[], []⟩

def restore (outer inner : Scope) : Scope := ⟨inner.declared, outer.visible⟩

variable (t : Locals)

def declare (s : Scope) (v : LocalId) : Checked :=
  if (t.get? v).isNone then .error (.unknownLocal v)
  else if s.declared.contains v then .error (.duplicateDeclaration v)
  else .ok ⟨v :: s.declared, v :: s.visible⟩

def declareAll (s : Scope) (vs : List LocalId) : Checked := vs.foldlM (declare t) s

def useViolation? (s : Scope) (v : LocalId) : Option Violation :=
  if (t.get? v).isNone then some (.unknownLocal v)
  else if s.visible.contains v then none
  else some (.undeclaredLocal v)

def leafViolation? (s : Scope) : Expr → Option Violation
  | .slot n => some (.unresolvedSlot n)
  | .var v => s.useViolation? t v
  | _ => none

def evaluate (s : Scope) (es : List Expr) : Checked :=
  match (Expr.nodesList es).findSome? (s.leafViolation? t) with
  | some v => .error v
  | none => .ok s

def store (declares : Bool) (s : Scope) : Expr → Checked
  | .slot n => .error (.unresolvedSlot n)
  | .var v =>
    if declares then s.declare t v
    else
      match s.useViolation? t v with
      | some e => .error e
      | none => .ok s
  | _ => .ok s

def statement (s : Scope) (st : Stmt) : Checked := do
  let s ← s.evaluate t st.operands
  match st with
  | .declare vs => s.declareAll t vs
  | .assign a => a.targets.foldlM (store t a.declares) s
  | _ => return s

def exit (kind : ExitKind) (isLast : Bool) (s : Scope) : Checked :=
  if isLast then .ok s else .error (.exitNotLast kind)

mutual

def node (inLoop isLast : Bool) (s : Scope) : Node → Checked
  | .stmt st => do
    let s ← if st.isReturn then s.exit .ret isLast else .ok s
    s.statement t st
  | .brk => if inLoop then s.exit .brk isLast else .error .breakOutsideLoop
  | .scope b => (body inLoop s b).map s.restore
  | .ifThen c b => do
    let s ← s.evaluate t [c]
    (body inLoop s b).map s.restore
  | .ifElse c a b => do
    let s ← s.evaluate t [c]
    let s ← (body inLoop s a).map s.restore
    (body inLoop s b).map s.restore
  | .whileDo c b => do
    let s ← s.evaluate t [c]
    (body true s b).map s.restore
  | .repeatUntil b c => do
    let inner ← body true s b
    (inner.evaluate t [c]).map s.restore
  | .numericFor v start stop step b => do
    let s ← s.evaluate t [start, stop, step]
    let inner ← s.declareAll t [v]
    (body true inner b).map s.restore
  | .genericFor vs es b => do
    let s ← s.evaluate t es
    let inner ← s.declareAll t vs
    (body true inner b).map s.restore

def body (inLoop : Bool) (s : Scope) : List Node → Checked
  | [] => .ok s
  | n :: rest => do
    let s ← node inLoop rest.isEmpty s n
    body inLoop s rest

end

end Scope

namespace Routine

def check (r : Routine) : Except Violation Unit := do
  let s ← Scope.empty.declareAll r.locals r.parameters
  let _ ← s.body r.locals false r.body
  return ()

def violation? (r : Routine) : Option Violation :=
  match r.check with
  | .ok _ => none
  | .error v => some v

end Routine

end LuaLift
