import LuaLift.Data.Total
import LuaLift.Proofs.Syntax.Cells
import LuaLift.Syntax.Stmt

namespace LuaLift

inductive Substituted (c : Cell) : Option Expr → List Cell → List Cell → Option Expr → Prop
  | kept (r : Option Expr) (l : List Cell) : Substituted c r l l r
  | taken {x : Expr} {l l' : List Cell} (h : ∀ d, l'.count d + [c].count d = l.count d + x.cells.count d) :
      Substituted c (some x) l l' none

theorem Substituted.count {c : Cell} {x : Expr} {l l' : List Cell} (h : Substituted c (some x) l l' none)
    (d : Cell) : l'.count d + [c].count d = l.count d + x.cells.count d := by
  cases h with
  | taken h => exact h d

theorem Substituted.append {c : Cell} {r s t : Option Expr} {k k' l l' : List Cell}
    (h : Substituted c r k k' s) (h' : Substituted c s l l' t) : Substituted c r (k ++ l) (k' ++ l') t := by
  cases h with
  | kept =>
    cases h' with
    | kept => exact .kept _ _
    | taken h' =>
      refine .taken fun d => ?_
      have := h' d
      simp only [List.count_append]
      omega
  | taken h =>
    cases h' with
    | kept =>
      refine .taken fun d => ?_
      have := h d
      simp only [List.count_append]
      omega

namespace Expr

theorem cells_index (t k : Expr) : (index t k).cells = t.cells ++ k.cells := by
  simp [cells, nodes, List.filterMap_cons, cell?]

theorem cells_unary (op : UnaryOp) (e : Expr) : (unary op e).cells = e.cells := by
  simp [cells, nodes, List.filterMap_cons, cell?]

theorem cells_binary (op : BinaryOp) (a b : Expr) : (binary op a b).cells = a.cells ++ b.cells := by
  simp [cells, nodes, List.filterMap_cons, cell?]

theorem cells_nodesList (es : List Expr) : (nodesList es).filterMap cell? = es.flatMap cells := by
  rw [nodesList_eq, List.filterMap_flatMap]
  rfl

theorem cells_nodesRecords (rs : List (Expr × Expr)) :
    (nodesRecords rs).filterMap cell? = rs.flatMap fun r => r.1.cells ++ r.2.cells := by
  induction rs with
  | nil => rfl
  | cons r rs ih => simp [nodesRecords, cells, ih]

theorem cells_call (f : Expr) (as : List Expr) : (call f as).cells = f.cells ++ as.flatMap cells := by
  simp [cells, nodes, List.filterMap_cons, cell?, ← cells_nodesList]

theorem cells_closure (p : Nat) (cs : List Expr) : (closure p cs).cells = cs.flatMap cells := by
  simp [cells, nodes, List.filterMap_cons, cell?, ← cells_nodesList]

theorem cells_table (as : List Expr) (rs : List (Expr × Expr)) : (table as rs).cells =
    as.flatMap cells ++ rs.flatMap fun r => r.1.cells ++ r.2.cells := by
  rw [← cells_nodesList, ← cells_nodesRecords]
  simp [cells, nodes, List.filterMap_cons, cell?]

theorem cells_cell {e : Expr} {c : Cell} (h : e.cell? = some c) : e.cells = [c] := by
  cases e <;> cases h <;> rfl

theorem cells_negate (e : Expr) : e.negate.cells = e.cells := by
  unfold negate
  split
  · rw [cells_unary]
  · rw [cells_binary, cells_binary]
  · rw [cells_binary, cells_binary]
  · rfl
  · rw [cells_unary]

theorem cellOf?_var (e : Expr) : e.cellOf? .var = e.var? := by
  cases e <;> rfl

theorem count_cellOf? (kind : CellKind) (es : List Expr) (i : Nat) :
    (es.filterMap (cellOf? kind)).count i = (es.filterMap cell?).count ⟨kind, i⟩ := by
  induction es with
  | nil => rfl
  | cons e es ih =>
    cases hc : e.cell? with
    | none => simp [cellOf?, hc, ih]
    | some c =>
      obtain ⟨k, j⟩ := c
      by_cases hk : k = kind
      · subst hk
        by_cases hj : j = i
        · subst hj
          simp [cellOf?, hc, ih]
        · simp [cellOf?, hc, ih, hj]
      · simp [cellOf?, hc, ih, hk]

theorem count_reads (kind : CellKind) (e : Expr) (i : Nat) :
    (e.reads kind).count i = e.cells.count ⟨kind, i⟩ :=
  count_cellOf? kind e.nodes i

theorem total_count (c : Cell) (es : List Expr) : total (·.count c) es = (es.flatMap cells).count c := by
  induction es with
  | nil => rfl
  | cons e es ih => rw [total, ih, List.flatMap_cons, List.count_append, count, count_reads]

theorem substituted_cell (c : Cell) {e : Expr} {d : Cell} (h : e.cell? = some d) (r : Option Expr) :
    Substituted c r e.cells (if c = d then (r.getD e, none) else (e, r) : Expr × Option Expr).1.cells
      (if c = d then (r.getD e, none) else (e, r) : Expr × Option Expr).2 := by
  by_cases hc : c = d
  · subst hc
    rw [if_pos rfl]
    cases r with
    | none => exact .kept _ _
    | some x =>
      refine .taken fun d => ?_
      simp only [Option.getD_some, cells_cell h]
      omega
  · rw [if_neg hc]
    exact .kept _ _

mutual

theorem substituted (c : Cell) : (e : Expr) → (r : Option Expr) →
    Substituted c r e.cells (e.substitute c r).1.cells (e.substitute c r).2
  | slot s, r => substituted_cell c (e := slot s) rfl r
  | var v, r => substituted_cell c (e := var v) rfl r
  | upvalue n, r => .kept _ _
  | global g, r => .kept _ _
  | constant k, r => .kept _ _
  | vararg, r => .kept _ _
  | index t k, r => by
    simp only [substitute, cells_index]
    exact (substituted c t r).append (substituted c k _)
  | unary op e, r => by
    simp only [substitute, cells_unary]
    exact substituted c e r
  | binary op a b, r => by
    simp only [substitute, cells_binary]
    exact (substituted c a r).append (substituted c b _)
  | call f as, r => by
    simp only [substitute, cells_call]
    exact (substituted c f r).append (substitutedList c as _)
  | closure p cs, r => .kept _ _
  | table as rs, r => by
    simp only [substitute, cells_table]
    exact (substitutedList c as r).append (substitutedRecords c rs _)

theorem substitutedList (c : Cell) : (es : List Expr) → (r : Option Expr) →
    Substituted c r (es.flatMap cells) ((substituteList c es r).1.flatMap cells) (substituteList c es r).2
  | [], r => .kept _ _
  | e :: es, r => by
    simp only [substituteList, List.flatMap_cons]
    exact (substituted c e r).append (substitutedList c es _)

theorem substitutedRecords (c : Cell) : (rs : List (Expr × Expr)) → (r : Option Expr) →
    Substituted c r (rs.flatMap fun r => r.1.cells ++ r.2.cells)
      ((substituteRecords c rs r).1.flatMap fun r => r.1.cells ++ r.2.cells) (substituteRecords c rs r).2
  | [], r => .kept _ _
  | (k, v) :: rs, r => by
    simp only [substituteRecords, List.flatMap_cons]
    exact ((substituted c k r).append (substituted c v _)).append (substitutedRecords c rs _)

end

end Expr

namespace Stmt

theorem substituted_target (c : Cell) (e : Expr) (r : Option Expr) : Substituted c r
    (e.targetOperands.flatMap Expr.cells) ((substituteTarget c e r).1.targetOperands.flatMap Expr.cells)
      (substituteTarget c e r).2 := by
  cases e with
  | index t k =>
    simp only [substituteTarget, Expr.targetOperands, List.flatMap_cons, List.flatMap_nil, List.append_nil]
    exact (Expr.substituted c t r).append (Expr.substituted c k _)
  | _ => exact .kept _ _

theorem substituted_targets (c : Cell) (es : List Expr) (r : Option Expr) : Substituted c r
    ((es.flatMap Expr.targetOperands).flatMap Expr.cells)
      (((substituteTargets c es r).1.flatMap Expr.targetOperands).flatMap Expr.cells)
      (substituteTargets c es r).2 := by
  induction es generalizing r with
  | nil => exact .kept _ _
  | cons e es ih =>
    simp only [substituteTargets, List.flatMap_cons, List.flatMap_append]
    exact (substituted_target c e r).append (ih _)

theorem substituted (c : Cell) (s : Stmt) (r : Option Expr) : Substituted c r
    (s.operands.flatMap Expr.cells) ((s.substitute c r).1.operands.flatMap Expr.cells) (s.substitute c r).2 := by
  cases s with
  | assign a =>
    simp only [substitute, operands, List.flatMap_append]
    exact (substituted_targets c a.targets r).append (Expr.substitutedList c a.values _)
  | call f as l =>
    simp only [substitute, operands, List.flatMap_cons]
    exact (Expr.substituted c f r).append (Expr.substitutedList c as _)
  | ret vs l => exact Expr.substitutedList c vs r
  | declare vs => exact .kept _ _

theorem filterMap_substituteTargets {α : Type} {g : Expr → Option α} (hg : ∀ t k, g (.index t k) = none)
    (c : Cell) (es : List Expr) (r : Option Expr) :
    (substituteTargets c es r).1.filterMap g = es.filterMap g := by
  induction es generalizing r with
  | nil => rfl
  | cons e es ih =>
    simp only [substituteTargets, List.filterMap_cons, ih]
    cases e <;> simp [substituteTarget, hg]

theorem isReturn_substitute (c : Cell) (s : Stmt) (r : Option Expr) :
    (s.substitute c r).1.isReturn = s.isReturn := by
  cases s <;> rfl

end Stmt

end LuaLift
