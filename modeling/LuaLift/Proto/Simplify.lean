import LuaLift.Data.Total
import LuaLift.Flow.Loops

namespace LuaLift

namespace Jump

def decide : Jump → Jump
  | branch (.constant c) b d => always (if c.truthy then b else d)
  | j => j

def isDecided : Jump → Bool
  | branch (.constant _) _ _ => true
  | _ => false

def redirect (f : BlockId → BlockId) (j : Jump) : Jump × Nat :=
  j.targets.foldl (fun r t => if f t = t then r else (r.1.retarget t (f t), r.2 + 1)) (j, 0)

def weight : Jump → Nat
  | branch .. => 3
  | always _ => 1
  | leave => 0

end Jump

namespace Proto

abbrev Changed := Proto × Nat

def decideTests (p : Proto) : Changed :=
  ({ p with blocks := p.blocks.map fun b => { b with jump := b.jump.decide } },
    p.blocks.countP (·.jump.isDecided))

def forward? (p : Proto) (b : BlockId) : Option BlockId :=
  match p.blocks[b]? with
  | some ⟨id, _, _, [], .always t⟩ => if id ≠ 0 ∧ t ≠ id then some t else none
  | _ => none

def follow (p : Proto) : Nat → BlockId → Option BlockId
  | 0, _ => none
  | n + 1, b =>
    match p.forward? b with
    | none => some b
    | some t => p.follow n t

/-- The end of a chain of empty blocks; a cycle of them has none and is left alone. -/
def destination (p : Proto) (b : BlockId) : BlockId := (p.follow (p.blocks.length + 1) b).getD b

def threadJumps (p : Proto) : Changed :=
  let results := p.blocks.map fun b =>
    let r := b.jump.redirect p.destination
    ({ b with jump := r.1 }, r.2)
  ({ p with blocks := results.map (·.1) }, total (·.2) results)

def joinable? (p : Proto) (f : Flow) (b : BlockId) : Option BlockId :=
  match p.jump b with
  | .always t => if t ≠ b ∧ t ≠ 0 ∧ f.predecessors t = [b] then some t else none
  | _ => none

def join (p : Proto) (b t : BlockId) : Proto :=
  match p.blocks[t]? with
  | none => p
  | some next =>
    let p := p.modify t fun c => { c with body := [], jump := .leave }
    p.modify b fun c =>
      { c with
        body := c.body ++ next.body
        jump := next.jump
        lastAddress := max c.lastAddress next.lastAddress }

def joinFirst (p : Proto) : Changed :=
  let f := Flow.of p
  match f.order.findSome? fun b => (p.joinable? f b).map (b, ·) with
  | some (b, t) => (p.join b t, 1)
  | none => (p, 0)

def simplifyStep (p : Proto) : Changed :=
  let (p, decided) := p.decideTests
  let (p, threaded) := p.threadJumps
  let (p, joined) := p.joinFirst
  (p, decided + threaded + joined)

def simplifyLoop : Nat → Proto → Changed
  | 0, p => (p, 0)
  | n + 1, p =>
    let (q, k) := p.simplifyStep
    if k = 0 then (p, 0)
    else
      let (r, l) := simplifyLoop n q
      (r, k + l)

def weight (p : Proto) : Nat := total (·.jump.weight) p.blocks

def compactId (f : Flow) (b : BlockId) : BlockId := (List.range b).countP f.isReachable

def compactBlock (f : Flow) (b : Block) : Block :=
  { b with
    id := compactId f b.id
    jump := b.jump.map fun t => if f.isReachable t then compactId f t else t }

def compact (p : Proto) : Changed :=
  let f := Flow.of p
  let removed := p.blocks.length - f.order.length
  if removed = 0 then (p, 0)
  else
    ({ p with blocks := (p.blocks.filter (f.isReachable ·.id)).map (compactBlock f) }, removed)

/-- Two rounds in a row that only thread do not happen, and every other round lowers the weight. -/
def simplify (p : Proto) : Changed :=
  let (p, k) := simplifyLoop (2 * p.weight + 2) p
  let (p, removed) := p.compact
  (p, k + removed)

end Proto

end LuaLift
