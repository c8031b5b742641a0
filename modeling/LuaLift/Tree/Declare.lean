import LuaLift.Tree.Basic

/-!
Declarations: each plain variable gets one at the first position of the innermost body around all its
occurrences, moved outwards while a read there might see a value from before.
-/

namespace LuaLift

abbrev Path := List (Nat × Nat)

structure Position where
  path : Path
  index : Nat
  deriving Repr, DecidableEq

/-- Compares step by step; a path comes before those it starts. -/
def pathLe : Path → Path → Bool
  | [], _ => true
  | _ :: _, [] => false
  | (i, w) :: p, (j, x) :: q => i < j || i = j && (w < x || w = x && pathLe p q)

def Position.key (q : Position) : Path := q.path ++ [(q.index, 0)]

structure Occurrence where
  var : LocalId
  position : Position
  deriving Repr, DecidableEq

namespace Node

/-! Occurrences. The test of a `repeat` stands at the end of its body. -/

def ownVars (n : Node) : List LocalId :=
  match n with
  | repeatUntil .. => n.definedVars
  | _ => n.definedVars ++ n.expressions.flatMap (·.vars)

def occurAt (path : Path) (index : Nat) (vs : List LocalId) : List Occurrence :=
  vs.map (⟨·, path, index⟩)

mutual

def occurrencesIn (path : Path) (i : Nat) : Node → List Occurrence
  | stmt s => occurAt path i (stmt s).ownVars
  | brk => []
  | scope b => occurrencesFrom (path ++ [(i, 0)]) 0 b
  | ifThen c b => occurAt path i c.vars ++ occurrencesFrom (path ++ [(i, 0)]) 0 b
  | ifElse c a b =>
    occurAt path i c.vars ++ occurrencesFrom (path ++ [(i, 0)]) 0 a ++
      occurrencesFrom (path ++ [(i, 1)]) 0 b
  | whileDo c b => occurAt path i c.vars ++ occurrencesFrom (path ++ [(i, 0)]) 0 b
  | repeatUntil b c =>
    occurrencesFrom (path ++ [(i, 0)]) 0 b ++ occurAt (path ++ [(i, 0)]) b.length c.vars
  | numericFor v x y z b =>
    occurAt path i (numericFor v x y z []).ownVars ++ occurrencesFrom (path ++ [(i, 0)]) 0 b
  | genericFor vs es b =>
    occurAt path i (genericFor vs es []).ownVars ++ occurrencesFrom (path ++ [(i, 0)]) 0 b

def occurrencesFrom (path : Path) : Nat → List Node → List Occurrence
  | _, [] => []
  | i, n :: rest => occurrencesIn path i n ++ occurrencesFrom path (i + 1) rest

end

end Node

def commonPath : Path → Path → Path
  | a :: p, b :: q => if a = b then a :: commonPath p q else []
  | _, _ => []

def Position.indexBelow (depth : Nat) (q : Position) : Nat :=
  (q.path[depth]?.map (·.1)).getD q.index

def commonPosition? : List Position → Option Position
  | [] => none
  | q :: rest =>
    let path := rest.foldl (fun p r => commonPath p r.path) q.path
    let below := Position.indexBelow path.length
    some ⟨path, rest.foldl (fun i r => min i (below r)) (below q)⟩

namespace Node

def bodyAt? : Body → Path → Option Body
  | body, [] => some body
  | body, (i, which) :: rest =>
    match body[i]? with
    | none => none
    | some n =>
      match n.bodies[which]? with
      | none => none
      | some b => bodyAt? b rest

def nodeAt? (root : Body) (q : Position) : Option Node := (bodyAt? root q.path).bind (·[q.index]?)

/-! Reads before any assignment. Scanning gives nothing when there may be one, else whether the variable
is assigned for sure. -/

def readBy (v : LocalId) (assigned : Bool) (es : List Expr) : Option Bool :=
  if !assigned && es.any (0 < ·.count ⟨.var, v⟩) then none else some assigned

mutual

def scan (v : LocalId) (assigned : Bool) : Node → Option Bool
  | stmt s => do
    let assigned ← readBy v assigned s.operands
    return assigned || (s.writes .var).contains v
  | brk => some assigned
  | scope b => scanAll v assigned b
  | ifThen c b => do
    let assigned ← readBy v assigned [c]
    let inner ← scanAll v assigned b
    return (inner || endsInExit b) && assigned
  | ifElse c a b => do
    let assigned ← readBy v assigned [c]
    let first ← scanAll v assigned a
    let second ← scanAll v assigned b
    return (first || endsInExit a) && (second || endsInExit b)
  | whileDo c b => do
    let assigned ← readBy v assigned [c]
    let _ ← scanAll v assigned b
    return assigned
  | repeatUntil b c => do
    let assigned ← scanAll v assigned b
    readBy v assigned [c]
  | numericFor _ start stop step b => do
    let assigned ← readBy v assigned [start, stop, step]
    let _ ← scanAll v assigned b
    return assigned
  | genericFor _ es b => do
    let assigned ← readBy v assigned es
    let _ ← scanAll v assigned b
    return assigned

def scanAll (v : LocalId) (assigned : Bool) : List Node → Option Bool
  | [] => some assigned
  | n :: rest => do
    let assigned ← scan v assigned n
    scanAll v assigned rest

end

def readFirst (root : Body) (v : LocalId) (q : Position) (body : Body) : Bool :=
  let tail := match q.path.getLast? with
    | some (i, _) =>
      match nodeAt? root ⟨q.path.dropLast, i⟩ with
      | some (repeatUntil _ c) => [c]
      | _ => []
    | none => []
  ((scanAll v false (body.drop q.index)).bind (readBy v · tail)).isNone

/-- Moves a position outwards, given the path to it from the inside, until no early read is left or a
loop has been left. -/
def hoist (root : Body) (v : LocalId) : List (Nat × Nat) → Nat → Position
  | [], i => ⟨[], i⟩
  | (j, which) :: up, i =>
    let here : Position := ⟨((j, which) :: up).reverse, i⟩
    match bodyAt? root here.path with
    | none => here
    | some body =>
      if readFirst root v here body then
        match nodeAt? root ⟨up.reverse, j⟩ with
        | some n => if n.isLoop then ⟨up.reverse, j⟩ else hoist root v up j
        | none => hoist root v up j
      else here

abbrev Placement := LocalId × Position

def placement? (root : Body) (occurrences : List Occurrence) (v : LocalId) : Option Placement :=
  (commonPosition? ((occurrences.filter (·.var = v)).map (·.position))).map fun q =>
    (v, hoist root v q.path.reverse q.index)

def placements (root : Body) (t : Locals) : List Placement :=
  let occurrences := occurrencesFrom [] 0 root
  ((List.range t.size).filter fun v => t.kind? v = some .plain).filterMap
    (placement? root occurrences)

def canDeclare (vs : List LocalId) (a : Assignment) : Bool :=
  !a.declares &&
    (a.targets.all fun e => e.var?.any vs.contains) && !a.values.any fun e => e.vars.any vs.contains

def declaration (vs : List LocalId) : List Node := if vs.isEmpty then [] else [stmt (.declare vs)]

def declaring (vs : List LocalId) : Node → List Node
  | stmt (.assign a) =>
    if canDeclare vs a then
      declaration (vs.filter fun v => !(a.targets.filterMap Expr.var?).contains v) ++
        [stmt (.assign { a with declares := true })]
    else declaration vs ++ [stmt (.assign a)]
  | n => declaration vs ++ [n]

def dueAt (placed : List Placement) (path : Path) (i : Nat) : List LocalId :=
  (placed.filter (·.2 = ⟨path, i⟩)).map (·.1)

def declareHere (vs : List LocalId) (i : Nat) (body : Body) : Body :=
  match body[i]? with
  | some n => body.take i ++ declaring vs n ++ body.drop (i + 1)
  | none => body ++ declaration vs

def changeAt (f : Body → Body) : Path → Body → Body
  | [], body => f body
  | (i, which) :: rest, body =>
    body.modify i (withBodies fun w b => if w = which then changeAt f rest b else b)

def declareAt (placed : List Placement) (root : Body) (q : Position) : Body :=
  changeAt (declareHere (dueAt placed q.path q.index) q.index) q.path root

/-- From the last position to the first, so that none shifts those still to come. -/
def declarationOrder (placed : List Placement) : List Position :=
  ((placed.map (·.2)).foldr List.insert []).mergeSort fun x y => pathLe y.key x.key

end Node

def Routine.declare (r : Routine) : Routine :=
  let placed := Node.placements r.body r.locals
  { r with body := (Node.declarationOrder placed).foldl (Node.declareAt placed) r.body }

end LuaLift
