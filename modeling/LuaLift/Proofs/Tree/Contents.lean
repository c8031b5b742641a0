import LuaLift.Proofs.Tree.Nodes

namespace LuaLift

theorem padded_append {α : Type} {x : α} {l l' k k' : List α}
    (h : ∃ n, l.Perm (k ++ List.replicate n x)) (h' : ∃ n, l'.Perm (k' ++ List.replicate n x)) :
    ∃ n, (l ++ l').Perm (k ++ k' ++ List.replicate n x) := by
  obtain ⟨m, hm⟩ := h
  obtain ⟨n, hn⟩ := h'
  refine ⟨m + n, (hm.append hn).trans ?_⟩
  rw [← List.replicate_append_replicate, List.append_assoc, List.append_assoc k k', ← List.append_assoc _ k',
    ← List.append_assoc k']
  exact (List.perm_append_comm.append_right _).append_left _

namespace Node

def statement? : Node → Option Stmt
  | stmt s => some s
  | _ => none

def statements (b : Body) : List Stmt := (nodesOf b).filterMap statement?

def conditions (b : Body) : List Expr := (nodesOf b).filterMap condition?

variable {n : Node} {a b : Body}

theorem statements_append (a b : Body) : statements (a ++ b) = statements a ++ statements b := by
  simp [statements, nodesOf_append]

theorem conditions_append (a b : Body) : conditions (a ++ b) = conditions a ++ conditions b := by
  simp [conditions, nodesOf_append]

theorem statements_cons (n : Node) (b : Body) : statements (n :: b) =
    n.statement?.toList ++ (n.bodies.flatMap statements ++ statements b) := by
  cases n <;> simp [statements, bodies, statement?, List.filterMap_cons]

theorem conditions_cons (n : Node) (b : Body) : conditions (n :: b) =
    n.condition?.toList ++ (n.bodies.flatMap conditions ++ conditions b) := by
  cases n <;> simp [conditions, bodies, condition?, List.filterMap_cons]

theorem statements_map_stmt (l : List Stmt) : statements (l.map stmt) = l := by
  induction l with
  | nil => rfl
  | cons s l ih =>
    rw [List.map_cons, statements_cons, ih]
    rfl

theorem conditions_map_stmt (l : List Stmt) : conditions (l.map stmt) = [] := by
  induction l with
  | nil => rfl
  | cons s l ih =>
    rw [List.map_cons, conditions_cons, ih]
    rfl

theorem statement?_of_condition {c : Expr} (h : n.condition? = some c) : n.statement? = none := by
  cases n with
  | stmt s => cases h
  | _ => rfl

end Node

namespace Proto

def Asks (p : Proto) (b : BlockId) (c : Expr) : Prop :=
  ∃ e t f, p.jump b = .branch e t f ∧ (c = e ∨ c = e.negate)

/-- A body that consists of contents of blocks, each in one piece, and of tests of blocks. Only an endless
loop has a condition that no block tests. -/
inductive Comprises (p : Proto) : Body → List BlockId → List (BlockId × Expr) → Prop
  | nil : Comprises p [] [] []
  | brk {rest : Body} {bs : List BlockId} {ts : List (BlockId × Expr)} (hr : Comprises p rest bs ts) :
      Comprises p (.brk :: rest) bs ts
  | block {rest : Body} {bs : List BlockId} {ts : List (BlockId × Expr)} (b : BlockId)
      (hr : Comprises p rest bs ts) : Comprises p ((p.body b).map .stmt ++ rest) (b :: bs) ts
  | single {n : Node} {body rest : Body} {bs bs' : List BlockId} {ts ts' : List (BlockId × Expr)}
      {b : BlockId} {c : Expr} (hn : n.bodies = [body]) (hc : n.condition? = some c) (ha : p.Asks b c)
      (hb : Comprises p body bs ts) (hr : Comprises p rest bs' ts') :
      Comprises p (n :: rest) (bs ++ bs') ((b, c) :: (ts ++ ts'))
  | double {onTrue onFalse rest : Body} {bs bs' bs'' : List BlockId}
      {ts ts' ts'' : List (BlockId × Expr)} {b : BlockId} {c : Expr} (ha : p.Asks b c)
      (ht : Comprises p onTrue bs ts) (hf : Comprises p onFalse bs' ts') (hr : Comprises p rest bs'' ts'') :
      Comprises p (.ifElse c onTrue onFalse :: rest) (bs ++ (bs' ++ bs''))
        ((b, c) :: (ts ++ (ts' ++ ts'')))
  | endless {body rest : Body} {bs bs' : List BlockId} {ts ts' : List (BlockId × Expr)}
      (hb : Comprises p body bs ts) (hr : Comprises p rest bs' ts') :
      Comprises p (.whileDo (.boolean true) body :: rest) (bs ++ bs') (ts ++ ts')

namespace Comprises

variable {p : Proto} {body body' : Body} {bs bs' : List BlockId} {ts ts' : List (BlockId × Expr)}

theorem append (h : p.Comprises body bs ts) (h' : p.Comprises body' bs' ts') :
    p.Comprises (body ++ body') (bs ++ bs') (ts ++ ts') := by
  induction h with
  | nil => exact h'
  | brk _ ih => exact .brk ih
  | block b _ ih =>
    rw [List.append_assoc]
    exact .block b ih
  | single hn hc ha hb _ _ ih =>
    rw [List.append_assoc, List.cons_append, List.cons_append, List.append_assoc]
    exact .single hn hc ha hb ih
  | double ha ht hf _ _ _ ih =>
    simp only [List.append_assoc, List.cons_append]
    exact .double ha ht hf ih
  | endless hb _ _ ih =>
    rw [List.append_assoc, List.append_assoc]
    exact .endless hb ih

theorem statements_eq (h : p.Comprises body bs ts) : Node.statements body = bs.flatMap p.body := by
  induction h with
  | nil => rfl
  | brk _ ih => exact ih
  | block b _ ih =>
    rw [Node.statements_append, Node.statements_map_stmt, ih]
    rfl
  | single hn hc _ _ _ ihb ih =>
    rw [Node.statements_cons, Node.statement?_of_condition hc, hn, ih, List.flatMap_append, ← ihb]
    simp
  | double _ _ _ _ iht ihf ih =>
    rw [Node.statements_cons, ih, List.flatMap_append, List.flatMap_append, ← iht, ← ihf]
    simp [Node.statement?, Node.bodies]
  | endless _ _ ihb ih =>
    rw [Node.statements_cons, ih, List.flatMap_append, ← ihb]
    simp [Node.statement?, Node.bodies]

theorem conditions_perm (h : p.Comprises body bs ts) :
    ∃ n, (Node.conditions body).Perm (ts.map Prod.snd ++ List.replicate n (.boolean true)) := by
  induction h with
  | nil => exact ⟨0, .refl _⟩
  | brk _ ih => exact ih
  | block b _ ih =>
    rw [Node.conditions_append, Node.conditions_map_stmt]
    exact ih
  | single hn hc _ _ _ ihb ih =>
    rw [Node.conditions_cons, hn, hc]
    obtain ⟨n, hperm⟩ := padded_append ihb ih
    exact ⟨n, by simpa using hperm⟩
  | double _ _ _ _ iht ihf ih =>
    rw [Node.conditions_cons]
    obtain ⟨n, hperm⟩ := padded_append iht (padded_append ihf ih)
    exact ⟨n, by simpa [Node.condition?, Node.bodies] using hperm⟩
  | endless _ _ ihb ih =>
    rw [Node.conditions_cons]
    obtain ⟨n, hperm⟩ := padded_append ihb ih
    refine ⟨n + 1, ?_⟩
    rw [List.replicate_succ]
    apply List.Perm.trans _ List.perm_middle.symm
    simpa [Node.condition?, Node.bodies] using hperm

end Comprises

end Proto

end LuaLift
