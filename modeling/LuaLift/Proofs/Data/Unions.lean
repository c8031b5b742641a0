import LuaLift.Proofs.Data.Partition
import Mathlib.Data.List.Induction
import Mathlib.Logic.Relation
import Mathlib.Order.Bounds.Basic

/-!
Runs of unions and finds. After any of them the classes of the partition are those that the unions generate,
and a find gives the least number of a class, whatever paths were shortened on the way.
-/

namespace LuaLift.Partition

open Relation

variable {c : Partition} {a b i n x y : Nat}

inductive Operation where
  | find (i : Nat)
  | union (a b : Nat)
  deriving Repr, DecidableEq

namespace Operation

def Below (n : Nat) : Operation → Prop
  | find i => i < n
  | union a b => a < n ∧ b < n

instance (n : Nat) : DecidablePred (Below n)
  | find i => inferInstanceAs (Decidable (i < n))
  | union a b => inferInstanceAs (Decidable (a < n ∧ b < n))

def act (c : Partition) : Operation → Partition
  | find i => (c.find i).2
  | union a b => c.union a b

def actPlainly (c : Partition) : Operation → Partition
  | find _ => c
  | union a b => c.link a b

end Operation

def run (c : Partition) (ops : List Operation) : Partition := ops.foldl Operation.act c

def runPlainly (c : Partition) (ops : List Operation) : Partition := ops.foldl Operation.actPlainly c

def Joins (ops : List Operation) (a b : Nat) : Prop := .union a b ∈ ops

def Presents (c : Partition) (r : Nat → Nat → Prop) : Prop := ∀ x y, c.Same x y ↔ EqvGen r x y

theorem same_union_iff (ha : a < c.parents.length) (hb : b < c.parents.length) :
    (c.union a b).Same x y ↔ c.Same x y ∨ (c.Same x a ∨ c.Same x b) ∧ (c.Same y a ∨ c.Same y b) := by
  constructor
  · intro h
    unfold Same at h ⊢
    rw [root_union ha hb, root_union ha hb] at h
    grind
  · rintro (h | ⟨hx, hy⟩)
    · exact h.union ha hb
    · unfold Same at hx hy ⊢
      rw [root_union ha hb, root_union ha hb, if_pos hx, if_pos hy]

theorem presents_discrete (n : Nat) : (discrete n).Presents (Joins []) := by
  intro x y
  rw [Same, root_discrete, root_discrete]
  constructor
  · rintro rfl
    exact .refl x
  · intro h
    induction h with
    | rel x y h => cases h
    | refl x => rfl
    | symm x y _ ih => exact ih.symm
    | trans x y z _ _ ihxy ihyz => exact ihxy.trans ihyz

namespace Presents

variable {r : Nat → Nat → Prop}

theorem congr {r' : Nat → Nat → Prop} (h : c.Presents r) (hr : ∀ x y, r x y ↔ r' x y) : c.Presents r' := by
  obtain rfl : r = r' := funext fun x => funext fun y => propext (hr x y)
  exact h

theorem find (h : c.Presents r) (i : Nat) : (c.find i).2.Presents r := fun x y => by
  rw [Same, root_find, root_find]
  exact h x y

theorem union (h : c.Presents r) (ha : a < c.parents.length) (hb : b < c.parents.length) :
    (c.union a b).Presents fun x y => r x y ∨ x = a ∧ y = b := by
  intro x y
  have old {x y : Nat} (hxy : c.Same x y) : EqvGen (fun x y => r x y ∨ x = a ∧ y = b) x y :=
    EqvGen.mono (fun _ _ => .inl) _ _ ((h x y).1 hxy)
  have new : EqvGen (fun x y => r x y ∨ x = a ∧ y = b) a b := .rel a b (.inr ⟨rfl, rfl⟩)
  constructor
  · intro hxy
    rcases (same_union_iff ha hb).1 hxy with hxy | ⟨hx, hy⟩
    · exact old hxy
    · have toA {z : Nat} (hz : c.Same z a ∨ c.Same z b) : EqvGen (fun x y => r x y ∨ x = a ∧ y = b) z a :=
        hz.elim old fun hz => (old hz).trans _ _ _ (new.symm _ _)
      exact (toA hx).trans _ _ _ ((toA hy).symm _ _)
  · intro hxy
    induction hxy with
    | rel x y hxy =>
      rcases hxy with hxy | ⟨rfl, rfl⟩
      · exact Same.union ((h x y).2 (.rel x y hxy)) ha hb
      · exact same_union ha hb
    | refl x => exact rfl
    | symm x y _ ih => exact ih.symm
    | trans x y z _ _ ihxy ihyz => exact ihxy.trans ihyz

theorem isLeast_root (h : c.Presents r) (i : Nat) : IsLeast {x | EqvGen r i x} (c.root i) := by
  constructor
  · exact (h i (c.root i)).1 (c.root_root i).symm
  · intro x hx
    have : c.root i = c.root x := (h i x).2 hx
    exact this ▸ c.root_le x

end Presents

theorem run_concat (c : Partition) (ops : List Operation) (op : Operation) :
    c.run (ops ++ [op]) = op.act (c.run ops) := List.foldl_append

theorem runPlainly_concat (c : Partition) (ops : List Operation) (op : Operation) :
    c.runPlainly (ops ++ [op]) = op.actPlainly (c.runPlainly ops) := List.foldl_append

theorem length_act (c : Partition) (op : Operation) : (op.act c).parents.length = c.parents.length := by
  cases op with
  | find i => exact length_find c i
  | union a b => exact length_union c a b

theorem length_actPlainly (c : Partition) (op : Operation) :
    (op.actPlainly c).parents.length = c.parents.length := by
  cases op with
  | find i => rfl
  | union a b => exact length_link c a b

theorem length_run (c : Partition) (ops : List Operation) : (c.run ops).parents.length = c.parents.length := by
  induction ops using List.reverseRecOn with
  | nil => rfl
  | append_singleton ops op ih => rw [run_concat, length_act, ih]

theorem length_runPlainly (c : Partition) (ops : List Operation) :
    (c.runPlainly ops).parents.length = c.parents.length := by
  induction ops using List.reverseRecOn with
  | nil => rfl
  | append_singleton ops op ih => rw [runPlainly_concat, length_actPlainly, ih]

theorem Presents.act {ops : List Operation} {op : Operation} (h : c.Presents (Joins ops))
    (hop : op.Below c.parents.length) : (op.act c).Presents (Joins (ops ++ [op])) := by
  cases op with
  | find i => exact (h.find i).congr fun x y => by simp [Joins]
  | union a b => exact (h.union hop.1 hop.2).congr fun x y => by simp [Joins]

theorem root_act {c' : Partition} {op : Operation} (h : ∀ x, c.root x = c'.root x)
    (hlen : c'.parents.length = c.parents.length) (hop : op.Below c.parents.length) (x : Nat) :
    (op.act c).root x = (op.actPlainly c').root x := by
  cases op with
  | find i => exact (root_find c i x).trans (h x)
  | union a b =>
    rw [Operation.act, Operation.actPlainly, root_union hop.1 hop.2,
      root_link (hlen ▸ hop.1) (hlen ▸ hop.2), h, h, h]

theorem length_discrete (n : Nat) : (discrete n).parents.length = n := List.length_range

theorem presents_run {ops : List Operation} (h : ∀ op ∈ ops, op.Below n) :
    ((discrete n).run ops).Presents (Joins ops) := by
  induction ops using List.reverseRecOn with
  | nil => exact presents_discrete n
  | append_singleton ops op ih =>
    rw [run_concat]
    refine (ih fun o ho => h o (List.mem_append_left _ ho)).act ?_
    rw [length_run, length_discrete]
    exact h op (by simp)

theorem root_run {ops : List Operation} (h : ∀ op ∈ ops, op.Below n) (x : Nat) :
    ((discrete n).run ops).root x = ((discrete n).runPlainly ops).root x := by
  induction ops using List.reverseRecOn generalizing x with
  | nil => rfl
  | append_singleton ops op ih =>
    rw [run_concat, runPlainly_concat]
    refine root_act (ih fun o ho => h o (List.mem_append_left _ ho)) ?_ ?_ x
    · rw [length_run, length_runPlainly]
    · rw [length_run, length_discrete]
      exact h op (by simp)

/-- A find after any unions and finds ends at the least number of the class, for both its loops: the parents lead
there, and it hangs what they pass, and nothing else, directly below. It answers as if no path had been shortened
before. -/
theorem find_least {ops : List Operation} (h : ∀ op ∈ ops, op.Below n) (i : Nat) :
    let c := (discrete n).run ops
    IsLeast {x | EqvGen (Joins ops) i x} (c.find i).1 ∧
      (∃ k ≤ i, c.parent^[k] i = (c.find i).1) ∧ c.parent (c.find i).1 = (c.find i).1 ∧
      (∀ k, (c.find i).2.parent (c.parent^[k] i) = (c.find i).1) ∧
      (∀ x, (∀ k, c.parent^[k] i ≠ x) → (c.find i).2.parent x = c.parent x) ∧
      (c.find i).1 = ((discrete n).runPlainly ops).root i := by
  intro c
  obtain ⟨hon, hoff⟩ := parent_compressTo (c := c) (i := i) rfl
  exact ⟨(presents_run h).isLeast_root i, c.exists_iterate_parent i, c.parent_root i, hon, hoff, root_run h i⟩

theorem find_least_chained :
    (∀ op ∈ [Operation.union 5 3, .union 4 5, .find 4, .union 1 4], op.Below 6) ∧
      IsLeast {x | EqvGen (Joins [.union 5 3, .union 4 5, .find 4, .union 1 4]) 5 x} 1 ∧
      IsLeast {x | EqvGen (Joins [.union 5 3, .union 4 5, .find 4, .union 1 4]) 2 x} 2 ∧
      ((discrete 6).runPlainly [.union 5 3, .union 4 5, .find 4, .union 1 4]).root 5 = 1 := by
  have hbelow : ∀ op ∈ [Operation.union 5 3, .union 4 5, .find 4, .union 1 4], op.Below 6 := by decide
  obtain ⟨hleast, -, -, -, -, hplain⟩ := find_least hbelow 5
  obtain ⟨halone, -, -, -, -, hplain'⟩ := find_least hbelow 2
  have hfive : ((discrete 6).runPlainly [.union 5 3, .union 4 5, .find 4, .union 1 4]).root 5 = 1 := by cbv
  have htwo : ((discrete 6).runPlainly [.union 5 3, .union 4 5, .find 4, .union 1 4]).root 2 = 2 := by cbv
  rw [hplain, hfive] at hleast
  rw [hplain', htwo] at halone
  exact ⟨hbelow, hleast, halone, hfive⟩

end LuaLift.Partition
