import LuaLift.Data.Total
import LuaLift.Tree.Basic

/-!
Tidying: values chosen by a test become `and` or `or`, an else arm behind an exit moves out, and tests
lose double negations.
-/

namespace LuaLift

namespace Node

abbrev Tidied := Body × Nat

def occurrences (body : Body) : List LocalId :=
  (nodesOf body).flatMap fun n => n.definedVars ++ n.expressions.flatMap (·.vars)

def testedVar? : Expr → Option (LocalId × Bool)
  | .var v => some (v, false)
  | .unary .not (.var v) => some (v, true)
  | _ => none

def assignedValue? (v : LocalId) : Node → Option Expr
  | stmt (.assign ⟨[.var w], [e], _, _⟩) => if w = v then some e else none
  | _ => none

def declares : Node → Bool
  | stmt (.assign a) => a.declares
  | _ => false

/-- `x = a` and then `if x then x = b end` give `a and b`; a negated test gives `a or b`. -/
def chosenValue? (first : Node) : Node → Option Expr
  | ifThen c [inner] => do
    let (v, negated) ← testedVar? c
    let a ← first.assignedValue? v
    let b ← inner.assignedValue? v
    guard (!inner.declares && a.count ⟨.var, v⟩ == 0 && b.count ⟨.var, v⟩ == 0)
    return .binary (if negated then .or else .and) a b
  | _ => none

def setValue (e : Expr) : Node → Node
  | stmt (.assign a) => stmt (.assign { a with values := [e] })
  | n => n

def takeValue? (uses : List LocalId) (e : Expr) : Node → Node → Option Node
  | stmt (.assign ⟨[.var v], _, _, _⟩), stmt s =>
    -- The variable occurs in both assignments, in the test, and in the statement behind.
    if e.hasCall || uses.count v ≠ 4 || s.readVars.count v ≠ 1 || s.writtenVars.contains v then none
    else
      match s.substitute ⟨.var, v⟩ (some e) with
      | (s, none) => some (stmt s)
      | (_, some _) => none
  | _, _ => none

def chooseFrom (uses : List LocalId) : Node → List Node → Tidied
  | first, [] => ([first], 0)
  | first, [second] =>
    match first.chosenValue? second with
    | some e => ([first.setValue e], 1)
    | none => ([first, second], 0)
  | first, second :: third :: rest =>
    match first.chosenValue? second with
    | some e =>
      match takeValue? uses e first third with
      | some n =>
        let (body, k) := chooseFrom uses n rest
        (body, k + 2)
      | none =>
        let (body, k) := chooseFrom uses (first.setValue e) (third :: rest)
        (body, k + 1)
    | none =>
      let (body, k) := chooseFrom uses second (third :: rest)
      (first :: body, k)

def chooseIn (uses : List LocalId) : Body → Tidied
  | [] => ([], 0)
  | n :: rest => chooseFrom uses n rest

def hoistArm : Node → Tidied
  | ifElse c a b => if endsInExit a then (ifThen c a :: b, 1) else ([ifElse c a b], 0)
  | n => ([n], 0)

def hoistIn : Body → Tidied
  | [] => ([], 0)
  | n :: rest =>
    let (here, k) := hoistArm n
    let (later, l) := hoistIn rest
    (here ++ later, k + l)

def isNegation : Expr → Bool
  | .unary .not _ | .binary .ne _ _ => true
  | _ => false

def normalTest? : Expr → Option Expr
  | .unary .not (.unary .not e) => some e
  | .unary .not (.binary .eq a b) => some (.binary .ne a b)
  | .unary .not (.binary .ne a b) => some (.binary .eq a b)
  | _ => none

def normalTest (e : Expr) : Expr × Nat :=
  match normalTest? e with
  | some c => (c, 1)
  | none => (e, 0)

/-- An empty else arm goes, and a negated test with an else arm turns round. -/
def simplifyTest : Node → Node × Nat
  | ifThen c b =>
    let (c, k) := normalTest c
    (ifThen c b, k)
  | ifElse c a b =>
    let (c, k) := normalTest c
    if b.isEmpty then (ifThen c a, k + 1)
    else if isNegation c then (ifElse c.negate b a, k + 1)
    else (ifElse c a b, k)
  | whileDo c b =>
    let (c, k) := normalTest c
    (whileDo c b, k)
  | repeatUntil b c =>
    let (c, k) := normalTest c
    (repeatUntil b c, k)
  | n => (n, 0)

def simplifyIn (body : Body) : Tidied :=
  let done := body.map simplifyTest
  (done.map (·.1), total (·.2) done)

def andThen (f : Body → Tidied) (t : Tidied) : Tidied :=
  let (b, k) := f t.1
  (b, t.2 + k)

mutual

def inside (f : Body → Tidied) : Node → Node × Nat
  | stmt s => (stmt s, 0)
  | brk => (brk, 0)
  | scope b =>
    let (b, k) := andThen f (insideEach f b)
    (scope b, k)
  | ifThen c b =>
    let (b, k) := andThen f (insideEach f b)
    (ifThen c b, k)
  | ifElse c a b =>
    let (a, k) := andThen f (insideEach f a)
    let (b, l) := andThen f (insideEach f b)
    (ifElse c a b, k + l)
  | whileDo c b =>
    let (b, k) := andThen f (insideEach f b)
    (whileDo c b, k)
  | repeatUntil b c =>
    let (b, k) := andThen f (insideEach f b)
    (repeatUntil b c, k)
  | numericFor v x y z b =>
    let (b, k) := andThen f (insideEach f b)
    (numericFor v x y z b, k)
  | genericFor vs es b =>
    let (b, k) := andThen f (insideEach f b)
    (genericFor vs es b, k)

def insideEach (f : Body → Tidied) : List Node → Tidied
  | [] => ([], 0)
  | n :: rest =>
    let (n, k) := inside f n
    let (rest, l) := insideEach f rest
    (n :: rest, k + l)

end

def everywhere (f : Body → Tidied) (body : Body) : Tidied := andThen f (insideEach f body)

def tidyRound (body : Body) : Tidied :=
  let (body, chosen) := everywhere (chooseIn (occurrences body)) body
  let (body, hoisted) := everywhere hoistIn body
  let (body, simplified) := everywhere simplifyIn body
  (body, chosen + hoisted + simplified)

def leadingNots : Expr → Nat
  | .unary .not e => leadingNots e + 1
  | _ => 0

def testWeight : Expr → Nat
  | .binary .ne _ _ => 1
  | e => 2 * leadingNots e

def weight : Node → Nat
  | ifElse c _ _ => testWeight c + 2
  | n => (n.condition?.map testWeight).getD 0 + 1

def tidyLoop : Nat → Body → Tidied
  | 0, body => (body, 0)
  | n + 1, body =>
    let (next, k) := tidyRound body
    if k = 0 then (body, 0)
    else
      let (last, l) := tidyLoop n next
      (last, k + l)

def tidy (body : Body) : Tidied := tidyLoop (total weight (nodesOf body) + 1) body

end Node

def Routine.tidy (r : Routine) : Routine × Nat :=
  let (body, k) := Node.tidy r.body
  ({ r with body }, k)

end LuaLift
