import LuaLift.Proofs.Slots.Store
import LuaLift.Proofs.Tree.Runs

namespace LuaLift

variable {V : Type}

namespace Store

def bind (σ : Store V) (vs : List LocalId) (held : LocalId → Option V) : Store V
  | ⟨.var, v⟩ => if v ∈ vs then held v else σ ⟨.var, v⟩
  | c => σ c

end Store

namespace Action

def operands : Action V → List Expr
  | stmt s => s.operands
  | test c _ => [c]
  | header es => es
  | bind _ _ => []

def readVars (a : Action V) : List LocalId := a.operands.flatMap (·.vars)

def writtenVars : Action V → List LocalId
  | stmt s => s.writes .var
  | bind vs _ => vs
  | _ => []

def perform (I : Valuation V) (σ : Store V) : Action V → Store V
  | stmt (.assign a) =>
    Stmt.assignAll (I (σ.see a.values)) (σ.forget (Stmt.assign a).declaredVars) a.targets.zipIdx
  | stmt (.declare vs) => σ.forget vs
  | bind vs held => σ.bind vs held
  | _ => σ

end Action

def valuesRead (I : Valuation V) : List (Action V) → Store V → List (Option V)
  | [], _ => []
  | a :: l, σ => (a.operands.flatMap Expr.cells).map σ ++ valuesRead I l (a.perform I σ)

/-- A variable in a run, beside the same run without declarations. -/
inductive Status where
  | untouched
  | kept
  /-- It has lost what it holds without declarations. -/
  | stale
  deriving DecidableEq

namespace Status

def declared : Status → Status
  | untouched => untouched
  | _ => stale

def Agrees : Status → Option V → Option V → Prop
  | untouched, x, y => x = none ∧ y = none
  | kept, x, y => x = y
  | stale, _, _ => True

theorem Agrees.eq {s : Status} {x y : Option V} (h : s.Agrees x y) (hs : s ≠ stale) : x = y := by
  cases s with
  | untouched => rw [h.1, h.2]
  | kept => exact h
  | stale => exact absurd rfl hs

theorem Agrees.declared {s : Status} {x y : Option V} (h : s.Agrees x y) : s.declared.Agrees none y := by
  cases s with
  | untouched => exact ⟨rfl, h.2⟩
  | _ => trivial

end Status

namespace Action

def follow (v : LocalId) (s : Status) (a : Action V) : Option Status :=
  if v ∈ a.readVars ∧ s = .stale then none
  else some (if v ∈ a.writtenVars then .kept else if v ∈ a.declaredVars then s.declared else s)

variable {v : LocalId} {s s' : Status} {a : Action V}

theorem follow_eq_some : a.follow v s = some s' ↔ (v ∈ a.readVars → s ≠ .stale) ∧
    s' = if v ∈ a.writtenVars then .kept else if v ∈ a.declaredVars then s.declared else s := by
  unfold follow
  split
  · next h => simp [h]
  · next h =>
    rw [Option.some.injEq, eq_comm, iff_and_self]
    exact fun _ hv hs => h ⟨hv, hs⟩

theorem follow_of_absent (hr : v ∉ a.readVars) (hw : v ∉ a.writtenVars) (hd : v ∉ a.declaredVars) :
    a.follow v s = some s := by
  simp [follow_eq_some, hr, hw, hd]

theorem follow_of_written (hr : v ∉ a.readVars) (hw : v ∈ a.writtenVars) : a.follow v s = some .kept := by
  simp [follow_eq_some, hr, hw]

variable {b : Action V}

theorem operands_undeclared (h : a.undeclared = some b) : b.operands = a.operands := by
  cases a with
  | stmt s => cases s <;> cases h <;> rfl
  | _ => cases h; rfl

theorem writtenVars_undeclared (h : a.undeclared = some b) : b.writtenVars = a.writtenVars := by
  cases a with
  | stmt s => cases s <;> cases h <;> rfl
  | _ => cases h; rfl

theorem declaredVars_undeclared (h : a.undeclared = some b) : b.declaredVars = [] := by
  cases a with
  | stmt s => cases s <;> cases h <;> rfl
  | _ => cases h; rfl

theorem operands_of_undeclared_none (h : a.undeclared = none) : a.operands = [] := by
  cases a with
  | stmt s => cases s <;> cases h; rfl
  | _ => cases h

theorem mem_cells_of_readVars (h : v ∈ a.readVars) : (⟨.var, v⟩ : Cell) ∈ a.cells := by
  obtain ⟨e, he, hv⟩ := List.mem_flatMap.1 h
  have hc : (⟨.var, v⟩ : Cell) ∈ a.operands.flatMap Expr.cells :=
    List.mem_flatMap.2 ⟨e, he, Expr.mem_reads.1 hv⟩
  cases a with
  | stmt s =>
    cases s with
    | assign a => exact List.mem_append_left _ hc
    | declare vs => cases hc
    | _ => exact hc
  | test c holds => simpa [operands, cells] using hc
  | header es => exact hc
  | bind vs held => cases hc

theorem mem_cells_of_writtenVars (h : v ∈ a.writtenVars) : (⟨.var, v⟩ : Cell) ∈ a.cells := by
  cases a with
  | stmt s =>
    cases s with
    | assign a => exact List.mem_append_right _ (Stmt.mem_writes.1 h)
    | _ => cases h
  | bind vs held => exact List.mem_map_of_mem h
  | _ => cases h

theorem mem_cells_of_declaredVars (h : v ∈ a.declaredVars) : (⟨.var, v⟩ : Cell) ∈ a.cells := by
  cases a with
  | stmt s =>
    cases s with
    | assign a =>
      simp only [declaredVars, Stmt.declaredVars] at h
      split at h
      · obtain ⟨e, he, hv⟩ := List.mem_filterMap.1 h
        refine List.mem_append_right _ (List.mem_filterMap.2 ⟨e, he, ?_⟩)
        cases e <;> cases hv
        rfl
      · cases h
    | declare vs => exact List.mem_map_of_mem h
    | _ => cases h
  | _ => cases h

end Action

structure Store.Beside (st : LocalId → Status) (σ τ : Store V) : Prop where
  slots : ∀ n, σ ⟨.slot, n⟩ = τ ⟨.slot, n⟩
  vars : ∀ v, (st v).Agrees (σ ⟨.var, v⟩) (τ ⟨.var, v⟩)

namespace Store.Beside

variable {st st' : LocalId → Status} {σ τ : Store V} (h : Beside st σ τ)
include h

theorem map_cells {es : List Expr} (hs : ∀ v ∈ es.flatMap (·.vars), st v ≠ .stale) :
    (es.flatMap Expr.cells).map σ = (es.flatMap Expr.cells).map τ := by
  refine List.map_congr_left fun c hc => ?_
  obtain ⟨kind, i⟩ := c
  cases kind with
  | slot => exact h.slots i
  | var =>
    refine (h.vars i).eq (hs i ?_)
    obtain ⟨e, he, hc⟩ := List.mem_flatMap.1 hc
    exact List.mem_flatMap.2 ⟨e, he, Expr.mem_reads.2 hc⟩

theorem forget (vs : List LocalId) (v : LocalId) :
    (if v ∈ vs then (st v).declared else st v).Agrees (σ.forget vs ⟨.var, v⟩) (τ ⟨.var, v⟩) := by
  rw [Store.forget]
  split
  · exact (h.vars v).declared
  · exact h.vars v

theorem perform {a : Action V} (hst : ∀ v, a.follow v (st v) = some (st' v)) (I : Valuation V) :
    Beside st' (a.perform I σ) (a.undeclared.elim τ fun b => b.perform I τ) := by
  have hread (v : LocalId) := (Action.follow_eq_some.1 (hst v)).1
  have hafter (v : LocalId) := (Action.follow_eq_some.1 (hst v)).2
  have same (hw : a.writtenVars = []) (hd : a.declaredVars = []) : st' = st := by
    funext v
    simpa [hw, hd] using hafter v
  cases a with
  | stmt s =>
    cases s with
    | assign a =>
      -- What is read is not stale, so both compute the same values, and write them to the same targets.
      have hvalues : σ.see a.values = τ.see a.values := by
        refine Prod.ext rfl (h.map_cells fun v hv => hread v ?_)
        obtain ⟨e, he, hv⟩ := List.mem_flatMap.1 hv
        exact List.mem_flatMap.2 ⟨e, List.mem_append_right _ he, hv⟩
      have hright : Action.perform I τ (.stmt (.assign { a with declares := false })) =
          Stmt.assignAll (I (τ.see a.values)) τ a.targets.zipIdx :=
        congrArg (Stmt.assignAll _ · _) (forget_nil τ)
      simp only [Action.undeclared, Option.elim_some, hright, ← hvalues]
      refine ⟨fun n => ?_, fun v => ?_⟩
      · by_cases hc : (⟨.slot, n⟩ : Cell) ∈ a.targets.zipIdx.filterMap fun t => t.1.cell?
        · exact Stmt.assignAll_of_mem _ _ hc
        · rw [Action.perform, Stmt.assignAll_of_not_mem hc, Stmt.assignAll_of_not_mem hc]
          exact h.slots n
      · have hv := hafter v
        by_cases hw : v ∈ (Action.stmt (.assign a) : Action V).writtenVars
        · rw [if_pos hw] at hv
          rw [hv]
          exact Stmt.assignAll_of_mem _ _ (Stmt.mem_targets_iff.2 hw)
        · have hc := mt Stmt.mem_targets_iff.1 hw
          rw [if_neg hw] at hv
          rw [hv, Action.perform, Stmt.assignAll_of_not_mem hc, Stmt.assignAll_of_not_mem hc]
          exact h.forget _ v
    | declare vs =>
      refine ⟨h.slots, fun v => ?_⟩
      rw [hafter v, if_neg (by exact List.not_mem_nil)]
      exact h.forget vs v
    | call f as l | ret es l => rwa [same rfl rfl]
  | test c holds | header es => rwa [same rfl rfl]
  | bind vs held =>
    refine ⟨h.slots, fun v => ?_⟩
    have hv := hafter v
    by_cases hw : v ∈ vs
    · rw [if_pos (by exact hw)] at hv
      rw [hv]
      simp [Action.undeclared, Action.perform, Store.bind, hw, Status.Agrees]
    · rw [if_neg (by exact hw), if_neg (by exact List.not_mem_nil)] at hv
      rw [hv]
      simpa [Action.undeclared, Action.perform, Store.bind, hw] using h.vars v

end Store.Beside

def walk (v : LocalId) (s : Status) (l : List (Action V)) : Option Status := l.foldlM (Action.follow v) s

section Walk

variable {v : LocalId} {s : Status}

@[simp] theorem walk_nil : walk v s ([] : List (Action V)) = some s := rfl

theorem walk_cons (a : Action V) (l : List (Action V)) :
    walk v s (a :: l) = (a.follow v s).bind fun s => walk v s l := List.foldlM_cons

theorem walk_append (k l : List (Action V)) : walk v s (k ++ l) = (walk v s k).bind fun s => walk v s l :=
  List.foldlM_append

theorem walk_undeclared {l : List (Action V)} (h : ∀ a ∈ l, v ∉ a.declaredVars) :
    walk v s l = walk v s (l.filterMap Action.undeclared) := by
  induction l generalizing s with
  | nil => rfl
  | cons a l ih =>
    rw [List.forall_mem_cons] at h
    cases ha : a.undeclared with
    | none =>
      have hfollow : a.follow v s = some s := by
        cases a with
        | stmt st => cases st <;> cases ha; exact Action.follow_of_absent nofun nofun h.1
        | _ => cases ha
      rw [List.filterMap_cons_none ha, walk_cons, hfollow]
      exact ih h.2
    | some b =>
      have hfollow : a.follow v s = b.follow v s := by
        unfold Action.follow
        rw [Action.readVars, Action.readVars, Action.operands_undeclared ha, Action.writtenVars_undeclared ha, if_neg h.1,
          Action.declaredVars_undeclared ha, if_neg List.not_mem_nil]
      rw [List.filterMap_cons_some ha, walk_cons, walk_cons, hfollow]
      exact congrArg _ (funext fun s => ih h.2)

end Walk

theorem valuesRead_undeclared (I : Valuation V) {l : List (Action V)} {st : LocalId → Status} {σ τ : Store V}
    (h : Store.Beside st σ τ) (hl : ∀ v, ∃ s, walk v (st v) l = some s) :
    valuesRead I l σ = valuesRead I (l.filterMap Action.undeclared) τ := by
  induction l generalizing st σ τ with
  | nil => rfl
  | cons a l ih =>
    have hstep (v : LocalId) : ∃ s', a.follow v (st v) = some s' ∧ ∃ s, walk v s' l = some s := by
      obtain ⟨s, hs⟩ := hl v
      rw [walk_cons, Option.bind_eq_some_iff] at hs
      obtain ⟨s', ha, hs⟩ := hs
      exact ⟨s', ha, s, hs⟩
    choose st' hst' hl' using hstep
    have hreads := h.map_cells fun v hv => (Action.follow_eq_some.1 (hst' v)).1 hv
    have hrest := ih (h.perform hst' I) hl'
    rw [valuesRead, hreads, hrest]
    cases ha : a.undeclared with
    | none => rw [List.filterMap_cons_none ha, Action.operands_of_undeclared_none ha]; rfl
    | some b => rw [List.filterMap_cons_some ha, valuesRead, Action.operands_undeclared ha]; rfl

end LuaLift
