import LuaLift.Proofs.Syntax.Cells
import LuaLift.Tree.Basic

namespace LuaLift

namespace Stmt

def allCells : Stmt → List Cell
  | assign a => (assign a).operands.flatMap Expr.cells ++ a.targets.filterMap Expr.cell?
  | declare vs => vs.map (⟨.var, ·⟩)
  | s => s.operands.flatMap Expr.cells

def declaredVars : Stmt → List LocalId
  | declare vs => vs
  | assign a => if a.declares then a.targets.filterMap Expr.var? else []
  | _ => []

def usedVars : Stmt → List LocalId
  | assign a => (assign a).readVars ++ if a.declares then [] else a.targets.filterMap Expr.var?
  | s => s.readVars

end Stmt

namespace Node

attribute [simp] nodes nodesOf expressions

def headerVars : Node → List LocalId
  | numericFor v _ _ _ _ => [v]
  | genericFor vs _ _ => vs
  | _ => []

def declaredVars : Node → List LocalId
  | stmt s => s.declaredVars
  | n => n.headerVars

def opened : Node → List LocalId
  | stmt s => s.declaredVars
  | _ => []

def cells : Node → List Cell
  | stmt s => s.allCells
  | n => n.expressions.flatMap Expr.cells ++ n.headerVars.map (⟨.var, ·⟩)

def ownUses : Node → List LocalId
  | stmt s => s.usedVars
  | repeatUntil _ _ => []
  | n => n.expressions.flatMap (·.vars)

section Parts

variable {g : Nat → Body → Body} {n : Node}

@[simp] theorem headerVars_withBodies : (n.withBodies g).headerVars = n.headerVars := by cases n <;> rfl

@[simp] theorem opened_withBodies : (n.withBodies g).opened = n.opened := by cases n <;> rfl

@[simp] theorem cells_withBodies : (n.withBodies g).cells = n.cells := by cases n <;> rfl

@[simp] theorem ownUses_withBodies : (n.withBodies g).ownUses = n.ownUses := by cases n <;> rfl

@[simp] theorem isLoop_withBodies : (n.withBodies g).isLoop = n.isLoop := by cases n <;> rfl

theorem withBodies_withBodies (h : Nat → Body → Body) :
    (n.withBodies g).withBodies h = n.withBodies fun w b => h w (g w b) := by
  cases n <;> rfl

theorem withBodies_congr {h : Nat → Body → Body} (hgh : ∀ w b, n.bodies[w]? = some b → g w b = h w b) :
    n.withBodies g = n.withBodies h := by
  cases n with
  | stmt s | brk => rfl
  | ifElse c a b => rw [withBodies, withBodies, hgh 0 a rfl, hgh 1 b rfl]
  | _ => rw [withBodies, withBodies, hgh 0 _ rfl]

theorem withBodies_eq_self (hg : ∀ w b, n.bodies[w]? = some b → g w b = b) : n.withBodies g = n := by
  rw [withBodies_congr (h := fun _ b => b) hg]
  cases n <;> rfl

theorem getElem?_bodies_withBodies (w : Nat) :
    (n.withBodies g).bodies[w]? = n.bodies[w]?.map (g w) := by
  rcases w with _ | _ | w <;> cases n <;> rfl

theorem forall_bodies_withBodies {P : Body → Prop} :
    (∀ b ∈ (n.withBodies g).bodies, P b) ↔ ∀ w b, n.bodies[w]? = some b → P (g w b) := by
  simp only [List.mem_iff_getElem?, getElem?_bodies_withBodies, Option.map_eq_some_iff]
  exact ⟨fun h w b hb => h _ ⟨w, b, hb, rfl⟩, fun h _ ⟨w, b, hb, he⟩ => he ▸ h w b hb⟩

theorem flatMap_bodies_withBodies {α : Type} {h : Body → List α}
    (hg : ∀ w b, n.bodies[w]? = some b → h (g w b) = h b) : (n.withBodies g).bodies.flatMap h = n.bodies.flatMap h := by
  cases n with
  | stmt s => rfl
  | brk => rfl
  | ifElse c a b =>
    have ha := hg 0 a rfl
    have hb := hg 1 b rfl
    simp [withBodies, bodies, ha, hb]
  | _ => simpa [withBodies, bodies] using hg 0 _ rfl

theorem isExit_withBodies (hg : ∀ w b, n.bodies[w]? = some b → endsInExit (g w b) = endsInExit b) :
    (n.withBodies g).isExit = n.isExit := by
  cases n with
  | scope b => exact hg 0 b rfl
  | ifElse c a b =>
    have ha := hg 0 a rfl
    have hb := hg 1 b rfl
    simp [withBodies, isExit, ha, hb]
  | _ => rfl

end Parts

theorem endsInExit_cons_cons (n m : Node) (rest : Body) :
    endsInExit (n :: m :: rest) = endsInExit (m :: rest) := by
  rw [endsInExit]

theorem endsInExit_append {a b : Body} (hb : b ≠ []) : endsInExit (a ++ b) = endsInExit b := by
  obtain ⟨m, b, rfl⟩ := List.exists_cons_of_ne_nil hb
  induction a with
  | nil => rfl
  | cons n a ih =>
    cases a with
    | nil => exact endsInExit_cons_cons n m b
    | cons n' a => exact (endsInExit_cons_cons n n' _).trans ih

theorem nodes_eq (n : Node) : n.nodes = n :: n.bodies.flatMap nodesOf := by
  cases n <;> simp [bodies]

theorem flatMap_nodes {α : Type} (h : Node → List α) (n : Node) :
    n.nodes.flatMap h = h n ++ n.bodies.flatMap fun b => (nodesOf b).flatMap h := by
  rw [nodes_eq, List.flatMap_cons, List.flatMap_assoc]

theorem mem_nodesOf {b : Body} {m : Node} : m ∈ nodesOf b ↔ ∃ n ∈ b, m ∈ n.nodes := by
  induction b with
  | nil => simp
  | cons n rest ih => simp [ih]

theorem nodesOf_mono {a b : Body} (h : a ⊆ b) : nodesOf a ⊆ nodesOf b := by
  intro m hm
  obtain ⟨n, hn, hm⟩ := mem_nodesOf.1 hm
  exact mem_nodesOf.2 ⟨n, h hn, hm⟩

theorem nodesOf_append (a b : Body) : nodesOf (a ++ b) = nodesOf a ++ nodesOf b := by
  induction a with
  | nil => rfl
  | cons n a ih => simp [ih]

theorem subset_nodesOf (l : Body) : l ⊆ nodesOf l := by
  intro n hn
  induction l with
  | nil => cases hn
  | cons m l ih =>
    rw [nodesOf, nodes_eq]
    rcases List.mem_cons.1 hn with rfl | hn
    · exact .head _
    · exact List.mem_append_right _ (ih hn)

mutual

theorem node_induct {Q : Node → Prop} {P : Body → Prop} (node : ∀ n : Node, (∀ b ∈ n.bodies, P b) → Q n)
    (nil : P []) (cons : ∀ n rest, Q n → P rest → P (n :: rest)) : (n : Node) → Q n
  | stmt s => node _ (by simp [bodies])
  | brk => node _ (by simp [bodies])
  | scope b => node _ (by simpa [bodies] using body_induct node nil cons b)
  | ifThen c b => node _ (by simpa [bodies] using body_induct node nil cons b)
  | ifElse c a b => node _ (by
      simpa [bodies] using ⟨body_induct node nil cons a, body_induct node nil cons b⟩)
  | whileDo c b => node _ (by simpa [bodies] using body_induct node nil cons b)
  | repeatUntil b c => node _ (by simpa [bodies] using body_induct node nil cons b)
  | numericFor v x y z b => node _ (by simpa [bodies] using body_induct node nil cons b)
  | genericFor vs es b => node _ (by simpa [bodies] using body_induct node nil cons b)

theorem body_induct {Q : Node → Prop} {P : Body → Prop} (node : ∀ n : Node, (∀ b ∈ n.bodies, P b) → Q n)
    (nil : P []) (cons : ∀ n rest, Q n → P rest → P (n :: rest)) : (b : List Node) → P b
  | [] => nil
  | n :: rest => cons n rest (node_induct node nil cons n) (body_induct node nil cons rest)

end

theorem tree_induct {Q : Node → Prop} {P : Body → Prop} (node : ∀ n : Node, (∀ b ∈ n.bodies, P b) → Q n)
    (nil : P []) (cons : ∀ n rest, Q n → P rest → P (n :: rest)) : (∀ n, Q n) ∧ ∀ b, P b :=
  ⟨node_induct node nil cons, body_induct node nil cons⟩

end Node

end LuaLift
