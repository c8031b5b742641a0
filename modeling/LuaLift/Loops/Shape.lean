import LuaLift.Loops.Generic
import LuaLift.Loops.Numeric

namespace LuaLift

inductive LoopShape where
  | pretest (condition : Expr) (bodyEntry follow : BlockId)
  | posttest (latch follow : BlockId)
  | numeric (v : LocalId) (start stop step : Expr) (bodyEntry follow : BlockId)
  | generic (vs : List LocalId) (iterators : List Expr) (bodyEntry follow : BlockId)
  | endless (follow : Option BlockId)
  deriving Repr

namespace LoopShape

def follow? : LoopShape → Option BlockId
  | pretest _ _ f | posttest _ f | numeric _ _ _ _ _ f | generic _ _ _ f => some f
  | endless f => f

end LoopShape

structure ShapedLoop where
  header : BlockId
  body : List BlockId
  shape : LoopShape
  deriving Repr

structure Note where
  header : BlockId
  detail : String
  deriving Repr, DecidableEq

def Note.text (n : Note) : String :=
  "partial for-loop idiom at block " ++ toString n.header ++ ": " ++ n.detail

namespace NaturalLoop

variable (l : NaturalLoop) (p : Proto) (f : Flow)

def pretest? : Option LoopShape := do
  guard (p.body l.header).isEmpty
  let exit ← l.exitTest? (p.jump l.header)
  let condition ← (p.jump l.header).condition?
  return .pretest (if exit.staysOnTrue then condition else condition.negate) exit.inside exit.outside

def posttest? : Option LoopShape := do
  let latch ← l.singleLatch?
  let exit ← l.exitTest? (p.jump latch)
  return .posttest latch exit.outside

/-- Blocks that go on come before blocks that leave, then reverse postorder decides. -/
def followKey (b : BlockId) : Nat :=
  let position := (f.position? b).getD 0
  match p.jump b with
  | .leave => f.size + position
  | _ => position

def exitTarget? : Option BlockId :=
  (l.exits f).foldl
    (fun best e =>
      match best with
      | some b => if followKey p f e.2 < followKey p f b then some e.2 else some b
      | none => some e.2)
    none

def plainShape : LoopShape :=
  ((l.pretest? p) <|> l.posttest? p).getD (.endless (l.exitTarget? p f))

end NaturalLoop

structure Classified where
  proto : Proto
  locals : Locals
  loops : List ShapedLoop
  notes : List Note
  deriving Repr

namespace Classified

def add (c : Classified) (l : NaturalLoop) (shape : LoopShape) : Classified :=
  { c with loops := c.loops ++ [⟨l.header, l.body, shape⟩] }

def addPlain (c : Classified) (f : Flow) (l : NaturalLoop) : Classified :=
  c.add l (l.plainShape c.proto f)

def note (c : Classified) (l : NaturalLoop) (m : Mismatch) : Classified :=
  { c with notes := c.notes ++ [⟨l.header, m.message⟩] }

def markLoopVars (t : Locals) (vs : List LocalId) : Locals := vs.foldl (·.setKind · .loop) t

def varsOf? (cells : List Cell) : Option (List LocalId) :=
  cells.mapM fun c => if c.kind = .var then some c.index else none

def numeric? (c : Classified) (l : NaturalLoop) (n : NumericLoop) : Option Classified :=
  (varsOf? [n.variableCell]).bind fun
    | [v] =>
      some ({ c with proto := n.strip c.proto, locals := markLoopVars c.locals [v] }.add l
        (.numeric v n.start n.stop n.step n.bodyEntry n.follow))
    | _ => none

def generic? (c : Classified) (l : NaturalLoop) (g : GenericLoop) : Option Classified :=
  (varsOf? g.variableCells).map fun vs =>
    { c with proto := g.strip c.proto, locals := markLoopVars c.locals vs }.add l
      (.generic vs g.iterators g.bodyEntry g.follow)

def step (recognizeFor : Bool) (f : Flow) (c : Classified) (l : NaturalLoop) : Classified :=
  if recognizeFor then
    let slotOf := c.locals.slotOf
    match NumericLoop.recognize slotOf true c.proto f l, GenericLoop.recognize slotOf c.proto f l with
    | .full n, _ => (c.numeric? l n).getD (c.addPlain f l)
    | _, .full g => (c.generic? l g).getD (c.addPlain f l)
    | .near m, _ | _, .near m => (c.note l m).addPlain f l
    | .none, .none => c.addPlain f l
  else c.addPlain f l

end Classified

/-- Decides every loop, inner ones first, and lists them by header. Statements of recognized idioms go
away. -/
def Proto.classify (p : Proto) (f : Flow) (t : Locals) (recognizeFor : Bool) : Classified :=
  let c := (f.loops f.dominance).foldl (Classified.step recognizeFor f) ⟨p, t, [], []⟩
  { c with loops := c.loops.mergeSort fun a b => a.header ≤ b.header }

end LuaLift
