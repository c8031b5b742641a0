import LuaLift.Proofs.Tree.Kept
import LuaLift.Proofs.Tree.Refusals

namespace LuaLift

namespace Node

variable {v : LocalId}

theorem mem_cells_iff {n : Node} :
    ⟨.var, v⟩ ∈ n.cells ↔ v ∈ n.definedVars ∨ v ∈ n.expressions.flatMap (·.vars) := by
  rw [← List.mem_append, ← List.count_pos_iff, ← List.count_pos_iff, count_definedVars]

theorem mem_cells_of_ownUses {n : Node} (h : v ∈ n.ownUses) : ⟨.var, v⟩ ∈ n.cells := by
  rw [mem_cells_iff]
  cases n with
  | stmt s =>
    rw [ownUses, Stmt.usedVars_eq, List.mem_append] at h
    rcases h with h | h
    · exact .inr h
    · cases s with
      | assign a =>
        rw [Stmt.assignedVars] at h
        split at h
        · cases h
        · refine .inl ?_
          simpa [definedVars, Stmt.writtenVars, Stmt.writes, Expr.cellOf?_var] using h
      | _ => cases h
  | repeatUntil b c => cases h
  | _ => exact .inr h

theorem sees_of_cells :
    (∀ n seen, (⟨.var, v⟩ ∈ n.nodes.flatMap cells → seen) → Sees v seen n) ∧
      ∀ b seen, (⟨.var, v⟩ ∈ (nodesOf b).flatMap cells → seen) → SeesAll v seen b := by
  refine tree_induct (fun n ih seen h => ?_) (fun _ _ => trivial) fun n rest ihn ih seen h => ?_
  · rw [flatMap_nodes, List.mem_append, or_imp] at h
    rw [sees_iff]
    refine ⟨fun hv => h.1 (mem_cells_of_ownUses hv), fun b hb => ih b hb _ fun hc => .inl (h.2 ?_),
      fun b c he hv => .inl (h.1 ?_)⟩
    · exact List.mem_flatMap.2 ⟨b, hb, hc⟩
    · subst he
      exact mem_cells_iff.2 (.inr (by simpa using hv))
  · rw [nodesOf, List.flatMap_append] at h
    exact ⟨ihn seen fun hc => h (List.mem_append_left _ hc), ih _ fun hc => .inl (h (List.mem_append_right _ hc))⟩

theorem tally_declaredVars (b : Body) : tally declaredVars v b = tally opened v b + tally headerVars v b := by
  have hnode (n : Node) : n.declaredVars.count v = n.opened.count v + n.headerVars.count v := by
    cases n <;> simp [declaredVars, opened, headerVars]
  unfold tally
  induction nodesOf b with
  | nil => rfl
  | cons n ns ih =>
    have := hnode n
    simp only [List.flatMap_cons, List.count_append]
    omega

end Node

namespace Routine

open Node

variable {r : Routine} {v : LocalId}

theorem tidy_fst (r : Routine) : r.tidy.1 = { r with body := (Node.tidy r.body).1 } := by
  rw [tidy_eq]

theorem count_declared (b : Body) : (r.parameters ++ (nodesOf b).flatMap declaredVars).count v =
    r.parameters.count v + (tally opened v b + tally headerVars v b) := by
  rw [List.count_append, ← tally_declaredVars]
  rfl

namespace Scoped

variable (h : r.Scoped)
include h

theorem declared_tidy : (r.tidy.1.parameters ++ (nodesOf r.tidy.1.body).flatMap declaredVars).Nodup := by
  rw [tidy_fst]
  refine List.nodup_iff_count.2 fun v => ?_
  have honce : (r.parameters ++ (nodesOf r.body).flatMap declaredVars).count v ≤ 1 :=
    List.nodup_iff_count.1 h.declared v
  change (r.parameters ++ (nodesOf (Node.tidy r.body).1).flatMap declaredVars).count v ≤ 1
  rw [count_declared] at honce ⊢
  rcases kept_or_gone v r.body with hk | ⟨h0, -, -⟩
  · rw [hk.opened, hk.headers]
    exact honce
  · have h1 := tally_opened_le (v := v) (Node.tidy r.body).1
    have h2 := tally_headerVars_le (v := v) (Node.tidy r.body).1
    omega

theorem sees_tidy (v : LocalId) : SeesAll v (v ∈ r.tidy.1.parameters) r.tidy.1.body := by
  rw [tidy_fst]
  rcases kept_or_gone v r.body with hk | ⟨h0, -, -⟩
  · exact hk.sees _ (h.sees v)
  · exact sees_of_cells.2 _ _ fun hc => absurd hc (List.count_eq_zero.1 h0)

theorem tidy (hn : NeatAll false r.body) : r.tidy.1.Scoped := by
  refine ⟨?_, fun c hc => ?_, ?_, h.declared_tidy, h.sees_tidy⟩
  · rw [tidy_fst]
    exact h.parameters
  · rw [tidy_fst] at hc ⊢
    exact h.cells c (cells_tidy _ hc)
  · rw [tidy_fst]
    exact ends_of_neat.2 _ _ (neatAll_tidy hn)

end Scoped

theorem tidy_violation_ne (h : r.violation? = none) (v : LocalId) :
    r.tidy.1.violation? ≠ some (.undeclaredLocal v) ∧ r.tidy.1.violation? ≠ some (.duplicateDeclaration v) := by
  rw [violation?_eq_none] at h
  refine ⟨fun hv => undeclared_of_violation hv (h.sees_tidy v), fun hv => ?_⟩
  have := duplicate_of_violation hv
  have := List.nodup_iff_count.1 h.declared_tidy v
  omega

theorem violation?_tidy (h : r.violation? = none) (hn : NeatAll false r.body) : r.tidy.1.violation? = none := by
  rw [violation?_eq_none] at h ⊢
  exact h.tidy hn

def guarded : Routine :=
  { id := 0
    parameters := []
    variadic := false
    body := [
      .ifElse (.global "c") [.stmt (.ret [] 0)] [.stmt (.ret [] 0)],
      .stmt (.call (.global "f") [] 0)]
    locals := ∅
    notes := []
    children := [] }

theorem guarded_tidy_refused : guarded.violation? = none ∧ guarded.tidy.1.violation? = some (.exitNotLast .ret) :=
  ⟨rfl, rfl⟩

end Routine

end LuaLift
