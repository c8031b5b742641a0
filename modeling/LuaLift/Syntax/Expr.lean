namespace LuaLift

abbrev Slot := Nat
abbrev LocalId := Nat

inductive CellKind where
  | slot
  | var
  deriving Repr, DecidableEq

structure Cell where
  kind : CellKind
  index : Nat
  deriving Repr, DecidableEq

inductive Constant where
  | nil
  | boolean (b : Bool)
  | number (x : Float)
  | string (s : String)
  deriving Repr, Inhabited

namespace Constant

def truthy : Constant → Bool
  | nil | boolean false => false
  | _ => true

def equal : Constant → Constant → Bool
  | nil, nil => true
  | boolean a, boolean b => a == b
  | number x, number y => x == y
  | string s, string t => s == t
  | _, _ => false

end Constant

inductive UnaryOp where
  | not
  | minus
  | length
  deriving Repr, DecidableEq

inductive BinaryOp where
  | add | sub | mul | div | mod | pow | concat
  | eq | ne | lt | le | gt | ge
  | and | or
  deriving Repr, DecidableEq

namespace UnaryOp

def text : UnaryOp → String
  | not => "not "
  | minus => "-"
  | length => "#"

end UnaryOp

namespace BinaryOp

def text : BinaryOp → String
  | add => "+"
  | sub => "-"
  | mul => "*"
  | div => "/"
  | mod => "%"
  | pow => "^"
  | concat => ".."
  | eq => "=="
  | ne => "~="
  | lt => "<"
  | le => "<="
  | gt => ">"
  | ge => ">="
  | and => "and"
  | or => "or"

end BinaryOp

inductive Expr where
  | slot (s : Slot)
  | var (v : LocalId)
  | upvalue (n : Nat)
  | global (name : String)
  | constant (c : Constant)
  | vararg
  | index (table key : Expr)
  | unary (op : UnaryOp) (operand : Expr)
  | binary (op : BinaryOp) (lhs rhs : Expr)
  | call (function : Expr) (arguments : List Expr)
  /-- The captures are the variables bound as upvalues of the prototype, in upvalue order. -/
  | closure (prototype : Nat) (captures : List Expr)
  | table (array : List Expr) (records : List (Expr × Expr))
  deriving Repr

namespace Expr

instance : Inhabited Expr := ⟨constant .nil⟩

def boolean (b : Bool) : Expr := constant (.boolean b)
def number (x : Float) : Expr := constant (.number x)
def ofCell : Cell → Expr
  | ⟨.slot, s⟩ => slot s
  | ⟨.var, v⟩ => var v

def cell? : Expr → Option Cell
  | slot s => some ⟨.slot, s⟩
  | var v => some ⟨.var, v⟩
  | _ => none

def slot? : Expr → Option Slot
  | slot s => some s
  | _ => none

def var? : Expr → Option LocalId
  | var v => some v
  | _ => none

def constant? : Expr → Option Constant
  | constant c => some c
  | _ => none

def isCall : Expr → Bool
  | call .. => true
  | _ => false

def isMultiValue : Expr → Bool
  | call .. | vararg => true
  | _ => false

/-- An ordering test is not turned round: both `a < b` and `a >= b` fail on NaN. -/
def negate : Expr → Expr
  | unary .not e => e
  | binary .eq a b => binary .ne a b
  | binary .ne a b => binary .eq a b
  | constant c => boolean !c.truthy
  | e => unary .not e

def pairs (records : List (Expr × Expr)) : List Expr :=
  records.flatMap fun r => [r.1, r.2]

def children : Expr → List Expr
  | slot _ | var _ | upvalue _ | global _ | constant _ | vararg => []
  | index t k => [t, k]
  | unary _ e => [e]
  | binary _ a b => [a, b]
  | call f as => f :: as
  | closure _ cs => cs
  | table as rs => as ++ pairs rs

mutual

def nodes : Expr → List Expr
  | slot s => [slot s]
  | var v => [var v]
  | upvalue n => [upvalue n]
  | global g => [global g]
  | constant c => [constant c]
  | vararg => [vararg]
  | index t k => index t k :: (t.nodes ++ k.nodes)
  | unary op e => unary op e :: e.nodes
  | binary op a b => binary op a b :: (a.nodes ++ b.nodes)
  | call f as => call f as :: (f.nodes ++ nodesList as)
  | closure p cs => closure p cs :: nodesList cs
  | table as rs => table as rs :: (nodesList as ++ nodesRecords rs)

def nodesList : List Expr → List Expr
  | [] => []
  | e :: es => e.nodes ++ nodesList es

def nodesRecords : List (Expr × Expr) → List Expr
  | [] => []
  | (k, v) :: rs => k.nodes ++ v.nodes ++ nodesRecords rs

end

def cellOf? (kind : CellKind) (e : Expr) : Option Nat :=
  e.cell?.bind fun c => if c.kind = kind then some c.index else none

def reads (kind : CellKind) (e : Expr) : List Nat := e.nodes.filterMap (cellOf? kind)

def slots (e : Expr) : List Slot := e.reads .slot
def vars (e : Expr) : List LocalId := e.reads .var

def count (c : Cell) (e : Expr) : Nat := (e.reads c.kind).count c.index

def capturedSlots (e : Expr) : List Slot :=
  e.nodes.flatMap fun
    | closure _ cs => cs.filterMap slot?
    | _ => []

def hasCall (e : Expr) : Bool := e.nodes.any isCall

def readsMutableState (e : Expr) : Bool :=
  e.nodes.any fun
    | index .. | global _ | upvalue _ | call .. => true
    | _ => false

mutual

def evaluated : Expr → List Expr
  | slot s => [slot s]
  | var v => [var v]
  | upvalue n => [upvalue n]
  | global g => [global g]
  | constant c => [constant c]
  | vararg => [vararg]
  | index t k => t.evaluated ++ k.evaluated ++ [index t k]
  | unary op e => e.evaluated ++ [unary op e]
  | binary op a b => a.evaluated ++ b.evaluated ++ [binary op a b]
  | call f as => f.evaluated ++ evaluatedList as ++ [call f as]
  | closure p cs => [closure p cs]
  | table as rs => evaluatedList as ++ evaluatedRecords rs ++ [table as rs]

def evaluatedList : List Expr → List Expr
  | [] => []
  | e :: es => e.evaluated ++ evaluatedList es

def evaluatedRecords : List (Expr × Expr) → List Expr
  | [] => []
  | (k, v) :: rs => k.evaluated ++ v.evaluated ++ evaluatedRecords rs

end

mutual

def substitute (c : Cell) : Expr → Option Expr → Expr × Option Expr
  | slot s, r => if c = ⟨.slot, s⟩ then (r.getD (slot s), none) else (slot s, r)
  | var v, r => if c = ⟨.var, v⟩ then (r.getD (var v), none) else (var v, r)
  | upvalue n, r => (upvalue n, r)
  | global g, r => (global g, r)
  | constant k, r => (constant k, r)
  | vararg, r => (vararg, r)
  | index t k, r =>
    let (t, r) := t.substitute c r
    let (k, r) := k.substitute c r
    (index t k, r)
  | unary op e, r =>
    let (e, r) := e.substitute c r
    (unary op e, r)
  | binary op a b, r =>
    let (a, r) := a.substitute c r
    let (b, r) := b.substitute c r
    (binary op a b, r)
  | call f as, r =>
    let (f, r) := f.substitute c r
    let (as, r) := substituteList c as r
    (call f as, r)
  | closure p cs, r => (closure p cs, r)
  | table as rs, r =>
    let (as, r) := substituteList c as r
    let (rs, r) := substituteRecords c rs r
    (table as rs, r)

def substituteList (c : Cell) : List Expr → Option Expr → List Expr × Option Expr
  | [], r => ([], r)
  | e :: es, r =>
    let (e, r) := e.substitute c r
    let (es, r) := substituteList c es r
    (e :: es, r)

def substituteRecords (c : Cell) :
    List (Expr × Expr) → Option Expr → List (Expr × Expr) × Option Expr
  | [], r => ([], r)
  | (k, v) :: rs, r =>
    let (k, r) := k.substitute c r
    let (v, r) := v.substitute c r
    let (rs, r) := substituteRecords c rs r
    ((k, v) :: rs, r)

end

mutual

def bindSlots (f : Slot → Expr) : Expr → Expr
  | slot s => f s
  | var v => var v
  | upvalue n => upvalue n
  | global g => global g
  | constant c => constant c
  | vararg => vararg
  | index t k => index (t.bindSlots f) (k.bindSlots f)
  | unary op e => unary op (e.bindSlots f)
  | binary op a b => binary op (a.bindSlots f) (b.bindSlots f)
  | call g as => call (g.bindSlots f) (bindSlotsList f as)
  | closure p cs => closure p (bindSlotsList f cs)
  | table as rs => table (bindSlotsList f as) (bindSlotsRecords f rs)

def bindSlotsList (f : Slot → Expr) : List Expr → List Expr
  | [] => []
  | e :: es => e.bindSlots f :: bindSlotsList f es

def bindSlotsRecords (f : Slot → Expr) : List (Expr × Expr) → List (Expr × Expr)
  | [] => []
  | (k, v) :: rs => (k.bindSlots f, v.bindSlots f) :: bindSlotsRecords f rs

end

section Rebuild

variable {m : Type → Type} [Monad m]

mutual

def rebuild (f : Expr → m Expr) : Expr → m Expr
  | slot s => f (slot s)
  | var v => f (var v)
  | upvalue n => f (upvalue n)
  | global g => f (global g)
  | constant c => f (constant c)
  | vararg => f vararg
  | index t k => do f (index (← t.rebuild f) (← k.rebuild f))
  | unary op e => do f (unary op (← e.rebuild f))
  | binary op a b => do f (binary op (← a.rebuild f) (← b.rebuild f))
  | call g as => do f (call (← g.rebuild f) (← rebuildList f as))
  | closure p cs => do f (closure p (← rebuildList f cs))
  | table as rs => do f (table (← rebuildList f as) (← rebuildRecords f rs))

def rebuildList (f : Expr → m Expr) : List Expr → m (List Expr)
  | [] => pure []
  | e :: es => return (← e.rebuild f) :: (← rebuildList f es)

def rebuildRecords (f : Expr → m Expr) : List (Expr × Expr) → m (List (Expr × Expr))
  | [] => pure []
  | (k, v) :: rs => return (← k.rebuild f, ← v.rebuild f) :: (← rebuildRecords f rs)

end

end Rebuild

mutual

def equal : Expr → Expr → Bool
  | slot a, slot b => a == b
  | var a, var b => a == b
  | upvalue a, upvalue b => a == b
  | global a, global b => a == b
  | constant a, constant b => a.equal b
  | vararg, vararg => true
  | index a b, index c d => a.equal c && b.equal d
  | unary op a, unary op' b => op == op' && a.equal b
  | binary op a b, binary op' c d => op == op' && a.equal c && b.equal d
  | call f as, call g bs => f.equal g && equalList as bs
  | closure p cs, closure q ds => p == q && equalList cs ds
  | table as rs, table bs ss => equalList as bs && equalRecords rs ss
  | _, _ => false

def equalList : List Expr → List Expr → Bool
  | [], [] => true
  | a :: as, b :: bs => a.equal b && equalList as bs
  | _, _ => false

def equalRecords : List (Expr × Expr) → List (Expr × Expr) → Bool
  | [], [] => true
  | (a, b) :: rs, (c, d) :: ss => a.equal c && b.equal d && equalRecords rs ss
  | _, _ => false

end

end Expr

end LuaLift
