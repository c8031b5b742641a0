import LuaLift.Proofs.Renumber.Simplify
import LuaLift.Proto.TestChain
import Mathlib.Data.Option.Defs

namespace LuaLift

variable {π : Equiv.Perm Nat}

def Test.renumber (π : Equiv.Perm Nat) (t : Test) : Test := { t with onTrue := π t.onTrue, onFalse := π t.onFalse }

theorem Jump.test?_map (j : Jump) : (j.map π).test? = j.test?.map (.renumber π) := by
  cases j <;> rfl

namespace Test

theorem conjoin?_renumber (a b : Test) :
    (a.renumber π).conjoin? (b.renumber π) = (a.conjoin? b).map (.renumber π) := by
  simp only [conjoin?, renumber, π.injective.eq_iff]
  split
  · rfl
  · split <;> rfl

theorem disjoin?_renumber (a b : Test) :
    (a.renumber π).disjoin? (b.renumber π) = (a.disjoin? b).map (.renumber π) := by
  simp only [disjoin?, renumber, π.injective.eq_iff]
  split
  · rfl
  · split <;> rfl

end Test

namespace Proto.Renumbers

variable {p q : Proto} (hr : p.Renumbers π q)
include hr

theorem innerTest? (head inner : BlockId) :
    q.innerTest? (.of q) (π head) (π inner) = (p.innerTest? (.of p) head inner).map (.renumber π) := by
  have hpreds : (Flow.of q).predecessors (π inner) = [π head] ↔ (Flow.of p).predecessors inner = [head] := by
    rw [hr.flow.predecessors, ← List.map_singleton, (List.map_injective_iff.2 π.injective).eq_iff]
  simp only [Proto.innerTest?, π.injective.eq_iff, hr.eq_zero_iff, hpreds, ne_eq, hr.body, hr.jump, Jump.test?_map]
  split
  · rfl
  · cases p.body inner with
    | cons s ss => cases (p.jump inner).test? <;> rfl
    | nil =>
      cases (p.jump inner).test? with
      | none => rfl
      | some t =>
        simp only [Option.map_some, Test.renumber, π.injective.eq_iff]
        split <;> rfl

theorem foldAt? (b : BlockId) :
    q.foldAt? (.of q) (π b) = (p.foldAt? (.of p) b).map (.renumber π) := by
  rw [Proto.foldAt?, Proto.foldAt?, hr.jump, Jump.test?_map]
  cases (p.jump b).test? with
  | none => rfl
  | some a =>
    have hne : (a.renumber π).onTrue ≠ (a.renumber π).onFalse ↔ a.onTrue ≠ a.onFalse := π.injective.ne_iff
    have hconjoin : (q.innerTest? (.of q) (π b) (a.renumber π).onTrue).bind (a.renumber π).conjoin? =
        ((p.innerTest? (.of p) b a.onTrue).bind a.conjoin?).map (.renumber π) := by
      rw [Test.renumber, hr.innerTest?]
      cases p.innerTest? (.of p) b a.onTrue with
      | none => rfl
      | some t => exact a.conjoin?_renumber t
    have hdisjoin : (q.innerTest? (.of q) (π b) (a.renumber π).onFalse).bind (a.renumber π).disjoin? =
        ((p.innerTest? (.of p) b a.onFalse).bind a.disjoin?).map (.renumber π) := by
      rw [Test.renumber, hr.innerTest?]
      cases p.innerTest? (.of p) b a.onFalse with
      | none => rfl
      | some t => exact a.disjoin?_renumber t
    simp only [Option.map_some, Option.bind_eq_bind, Option.bind_some, hne, hconjoin, hdisjoin]
    by_cases hab : a.onTrue = a.onFalse
    · simp [hab, guard, failure]
    · simp only [ne_eq, hab, not_false_eq_true, guard, if_true, Option.pure_def, Option.bind_some]
      cases (p.innerTest? (.of p) b a.onTrue).bind a.conjoin? <;> rfl

theorem foldFirst? : Option.Rel (Renumbers π) p.foldFirst? q.foldFirst? := by
  have hfirst : ((Flow.of q).order.findSome? fun b => (q.foldAt? (.of q) b).map (b, ·)) =
      ((Flow.of p).order.findSome? fun b => (p.foldAt? (.of p) b).map (b, ·)).map (Prod.map π (.renumber π)) := by
    rw [hr.flow.order, List.findSome?_map, List.map_findSome?]
    congr 1
    funext b
    simp only [Function.comp_apply, hr.foldAt?, Option.map_map]
    rfl
  rw [Proto.foldFirst?, Proto.foldFirst?, hfirst]
  cases (Flow.of p).order.findSome? fun b => (p.foldAt? (.of p) b).map (b, ·) with
  | none => exact .none
  | some e =>
    apply Option.Rel.some
    apply hr.modify
    · intro c
      rfl
    · intro c
      rfl

omit hr in
theorem foldLoop (n : Nat) {p q : Proto} (hr : p.Renumbers π q) :
    (foldLoop n p).1.Renumbers π (foldLoop n q).1 ∧ (foldLoop n q).2 = (foldLoop n p).2 := by
  induction n generalizing p q with
  | zero => exact ⟨hr, rfl⟩
  | succ n ih =>
    have hfirst := hr.foldFirst?
    rw [Proto.foldLoop, Proto.foldLoop]
    generalize p.foldFirst? = x at hfirst
    generalize q.foldFirst? = y at hfirst
    cases hfirst with
    | none => exact ⟨hr, rfl⟩
    | some h =>
      obtain ⟨hloop, hk⟩ := ih h
      exact ⟨hloop, congrArg (· + 1) hk⟩

theorem clearUnreachable : p.clearUnreachable.Renumbers π q.clearUnreachable := by
  apply hr.mapBlocks
  · intro b
    split <;> rfl
  · intro b _
    have hid : (b.renumber π).id = π b.id := rfl
    rw [hid, hr.flow.isReachable]
    split <;> rfl

end Proto.Renumbers

end LuaLift
