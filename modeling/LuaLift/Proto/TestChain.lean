import LuaLift.Flow.Loops

/-!
Chains of tests: an empty test block that only another test enters, and that shares a target with it,
is the second operand of `and` or `or`.
-/

namespace LuaLift

structure Test where
  condition : Expr
  onTrue : BlockId
  onFalse : BlockId
  deriving Repr

def Jump.test? : Jump → Option Test
  | branch e b c => some ⟨e, b, c⟩
  | _ => none

def Test.jump (t : Test) : Jump := .branch t.condition t.onTrue t.onFalse

namespace Test

def conjoin? (a b : Test) : Option Test :=
  if b.onFalse = a.onFalse then
    some ⟨.binary .and a.condition b.condition, b.onTrue, a.onFalse⟩
  else if b.onTrue = a.onFalse then
    some ⟨.binary .and a.condition b.condition.negate, b.onFalse, a.onFalse⟩
  else none

def disjoin? (a b : Test) : Option Test :=
  if b.onTrue = a.onTrue then
    some ⟨.binary .or a.condition b.condition, a.onTrue, b.onFalse⟩
  else if b.onFalse = a.onTrue then
    some ⟨.binary .or a.condition b.condition.negate, a.onTrue, b.onTrue⟩
  else none

end Test

namespace Proto

def innerTest? (p : Proto) (f : Flow) (head inner : BlockId) : Option Test :=
  if inner = head ∨ inner = 0 ∨ f.predecessors inner ≠ [head] then none
  else
    match p.body inner, (p.jump inner).test? with
    | [], some t =>
      if t.onTrue = inner ∨ t.onFalse = inner ∨ t.onTrue = t.onFalse then none else some t
    | _, _ => none

def foldAt? (p : Proto) (f : Flow) (head : BlockId) : Option Test := do
  let a ← (p.jump head).test?
  guard (a.onTrue ≠ a.onFalse)
  ((p.innerTest? f head a.onTrue).bind a.conjoin?) <|>
    ((p.innerTest? f head a.onFalse).bind a.disjoin?)

def foldFirst? (p : Proto) : Option Proto :=
  let f := Flow.of p
  (f.order.findSome? fun b => (p.foldAt? f b).map (b, ·)).map fun (b, t) =>
    p.modify b fun c => { c with jump := t.jump }

def foldLoop : Nat → Proto → Proto × Nat
  | 0, p => (p, 0)
  | n + 1, p =>
    match p.foldFirst? with
    | none => (p, 0)
    | some q =>
      let (r, k) := foldLoop n q
      (r, k + 1)

def foldTests (p : Proto) : Proto × Nat := foldLoop p.blocks.length p

def clearUnreachable (p : Proto) : Proto :=
  let f := Flow.of p
  { p with
    blocks := p.blocks.map fun b =>
      if f.isReachable b.id then b else { b with body := [], jump := .leave } }

end Proto

end LuaLift
