import LuaLift.Flow.Loops
import LuaLift.Tree.Basic

/-!
The tree of a block graph. A region runs from a block to a stop. A branch opens a conditional between it
and the merge point of its arms, and a header opens its loop. Inside a loop the header ends a region and
the follow becomes a break. Every block is placed once.
-/

namespace LuaLift

structure Frame where
  header : BlockId
  follow : Option BlockId
  closing : Option BlockId
  /-- Blocks of the loop, and blocks behind it from which its follow is out of reach. -/
  owned : List BlockId
  deriving Repr, DecidableEq

structure Plan where
  proto : Proto
  flow : Flow
  loops : List ShapedLoop
  merges : List (Option BlockId)

inductive Arrival where
  | header
  | follow
  | crossing (header : BlockId)
  | inside
  deriving Repr, DecidableEq

namespace Frame

def isEdge (f : Frame) (b : BlockId) : Bool := b == f.header || f.follow == some b

def arrive (b : BlockId) : List Frame → Arrival
  | [] => .inside
  | f :: outer =>
    if b = f.header then .header
    else if f.follow = some b then .follow
    else
      match outer.reverse.find? (·.isEdge b) with
      | some o => .crossing o.header
      | none => .inside

end Frame

structure Built (α : Type) where
  result : α
  pending : List BlockId

namespace Plan

def of (p : Proto) (f : Flow) (loops : List ShapedLoop) : Plan :=
  ⟨p, f, loops, f.mergePoints f.dominance⟩

variable (pl : Plan)

def loopAt? (b : BlockId) : Option ShapedLoop := pl.loops.find? (·.header = b)

def reachFrom (b : BlockId) : List BlockId :=
  (pl.flow.graph.walkIn (List.range pl.flow.size) [b]).postorder

def frame (l : ShapedLoop) : Frame :=
  let follow := l.shape.follow?
  let leaving := match follow with
    | some b =>
      let after := pl.reachFrom b
      (pl.reachFrom l.header).filter fun c => !after.contains c && c ≠ b
    | none => []
  let closing := match l.shape with
    | .posttest latch _ => some latch
    | _ => none
  ⟨l.header, follow, closing, l.body ++ leaving⟩

def mergePoint? (frames : List Frame) (b : BlockId) : Option BlockId :=
  (pl.merges[b]?.join).filter fun m =>
    match frames with
    | [] => true
    | f :: _ => f.owned.contains m

def conditional (c : Expr) (onTrue onFalse : Body) : Node :=
  if onFalse.isEmpty then .ifThen c onTrue
  else if onTrue.isEmpty then .ifThen c.negate onFalse
  else .ifElse c onTrue onFalse

def untilTest? (header latch : BlockId) : Option Expr :=
  match pl.proto.jump latch with
  | .branch c b _ => some (if b = header then c.negate else c)
  | _ => none

abbrev Building (α : Type) (bound : Nat → Prop) :=
  Except Reason { r : Built α // bound r.pending.length }

mutual

def region (frames : List Frame) (stop current : Option BlockId) (pending : List BlockId) :
    Building Body (· ≤ pending.length) :=
  match current with
  | none => .ok ⟨⟨[], pending⟩, Nat.le_refl _⟩
  | some b =>
    if stop = some b then .ok ⟨⟨[], pending⟩, Nat.le_refl _⟩
    else
      match Frame.arrive b frames with
      | .header => .ok ⟨⟨[], pending⟩, Nat.le_refl _⟩
      | .follow => .ok ⟨⟨[.brk], pending⟩, Nat.le_refl _⟩
      | .crossing h => .error (.irreducible b (.crossing h))
      | .inside =>
        match pl.loopAt? b with
        | some l =>
          match loopNode frames l pending with
          | .error e => .error e
          | .ok ⟨⟨node, left⟩, hl⟩ =>
            match region frames stop l.shape.follow? left with
            | .error e => .error e
            | .ok ⟨⟨rest, last⟩, hr⟩ =>
              .ok ⟨⟨node :: rest, last⟩, Nat.le_trans hr (Nat.le_of_lt hl)⟩
        | none =>
          match place frames stop b pending with
          | .error e => .error e
          | .ok ⟨r, hr⟩ => .ok ⟨r, Nat.le_of_lt hr⟩
termination_by (pending.length, 2)

def place (frames : List Frame) (stop : Option BlockId) (b : BlockId) (pending : List BlockId) :
    Building Body (· < pending.length) :=
  if hb : b ∈ pending then
    have hlt := Digraph.length_erase_lt hb
    let stmts := (pl.proto.body b).map Node.stmt
    if (frames.head?.bind (·.closing)) = some b then .ok ⟨⟨stmts, pending.erase b⟩, hlt⟩
    else
      match pl.proto.jump b with
      | .leave => .ok ⟨⟨stmts, pending.erase b⟩, hlt⟩
      | .always t =>
        match region frames stop (some t) (pending.erase b) with
        | .error e => .error e
        | .ok ⟨⟨rest, last⟩, hr⟩ => .ok ⟨⟨stmts ++ rest, last⟩, Nat.lt_of_le_of_lt hr hlt⟩
      | .branch c t e =>
        let merge := pl.mergePoint? frames b
        match region frames merge (some t) (pending.erase b) with
        | .error e => .error e
        | .ok ⟨⟨onTrue, left⟩, ht⟩ =>
          have hleft : left.length < pending.length := Nat.lt_of_le_of_lt ht hlt
          match region frames merge (some e) left with
          | .error e => .error e
          | .ok ⟨⟨onFalse, later⟩, he⟩ =>
            have hlater : later.length < pending.length := Nat.lt_of_le_of_lt he hleft
            match region frames stop merge later with
            | .error e => .error e
            | .ok ⟨⟨rest, last⟩, hr⟩ =>
              .ok ⟨⟨stmts ++ conditional c onTrue onFalse :: rest, last⟩,
                Nat.lt_of_le_of_lt hr hlater⟩
  else .error (.irreducible b .repeated)
termination_by (pending.length, 0)

def headed (frames : List Frame) (l : ShapedLoop) (entry : BlockId) (pending : List BlockId) :
    Building Body (· < pending.length) :=
  if hb : l.header ∈ pending then
    have hlt := Digraph.length_erase_lt hb
    match region (pl.frame l :: frames) none (some entry) (pending.erase l.header) with
    | .error e => .error e
    | .ok ⟨r, hr⟩ => .ok ⟨r, Nat.lt_of_le_of_lt hr hlt⟩
  else .error (.irreducible l.header .repeated)
termination_by (pending.length, 0)

def loopNode (frames : List Frame) (l : ShapedLoop) (pending : List BlockId) :
    Building Node (· < pending.length) :=
  match l.shape with
  | .pretest c entry _ =>
    match headed frames l entry pending with
    | .error e => .error e
    | .ok ⟨⟨body, left⟩, h⟩ => .ok ⟨⟨.whileDo c body, left⟩, h⟩
  | .numeric v start stop step entry _ =>
    match headed frames l entry pending with
    | .error e => .error e
    | .ok ⟨⟨body, left⟩, h⟩ => .ok ⟨⟨.numericFor v start stop step body, left⟩, h⟩
  | .generic vs iterators entry _ =>
    match headed frames l entry pending with
    | .error e => .error e
    | .ok ⟨⟨body, left⟩, h⟩ => .ok ⟨⟨.genericFor vs iterators body, left⟩, h⟩
  | .posttest latch _ =>
    match place (pl.frame l :: frames) none l.header pending with
    | .error e => .error e
    | .ok ⟨⟨body, left⟩, h⟩ =>
      match pl.untilTest? l.header latch with
      | some c => .ok ⟨⟨.repeatUntil body c, left⟩, h⟩
      | none => .error (.irreducible latch .untestedLatch)
  | .endless _ =>
    match place (pl.frame l :: frames) none l.header pending with
    | .error e => .error e
    | .ok ⟨⟨body, left⟩, h⟩ => .ok ⟨⟨.whileDo (.boolean true) body, left⟩, h⟩
termination_by (pending.length, 1)

end

def build : Except Reason Body :=
  match pl.region [] none (some 0) (List.range pl.flow.size) with
  | .error e => .error e
  | .ok ⟨⟨body, left⟩, _⟩ =>
    match pl.flow.order.find? left.contains with
    | some b => .error (.irreducible b .uncovered)
    | none => .ok body

end Plan

end LuaLift
