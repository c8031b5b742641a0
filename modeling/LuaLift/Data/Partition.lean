/-!
A partition of the natural numbers by parents that never exceed their children. A class goes by its
root, which `union` keeps the smallest member.
-/

namespace LuaLift

structure Partition where
  parents : List Nat
  descends : ∀ i p : Nat, parents[i]? = some p → p ≤ i

namespace Partition

def discrete (n : Nat) : Partition :=
  ⟨List.range n, fun i p h => by
    obtain ⟨hi, rfl⟩ := List.getElem?_eq_some_iff.1 h
    simp⟩

def parent (c : Partition) (i : Nat) : Nat := c.parents[i]?.getD i

theorem parent_le (c : Partition) (i : Nat) : c.parent i ≤ i := by
  unfold parent
  cases h : c.parents[i]? with
  | none => simp
  | some p => exact c.descends i p h

def root (c : Partition) (i : Nat) : Nat :=
  if c.parent i = i then i else c.root (c.parent i)
termination_by i
decreasing_by
  have := c.parent_le i
  omega

theorem root_le (c : Partition) (i : Nat) : c.root i ≤ i := by
  induction i using Nat.strongRecOn with
  | _ i ih =>
    unfold root
    split
    · exact Nat.le_refl i
    · next h =>
      have hp := c.parent_le i
      exact Nat.le_trans (ih _ (by omega)) hp

def hang (c : Partition) (i p : Nat) (h : p ≤ i) : Partition :=
  ⟨c.parents.set i p, fun j q hj => by
    rw [List.getElem?_set] at hj
    split at hj
    · next he =>
      split at hj
      · cases hj
        omega
      · cases hj
    · exact c.descends j q hj⟩

def compressTo (r : Nat) (c : Partition) (i : Nat) : Partition :=
  if h : c.parent i = i ∨ i < r then c
  else compressTo r (c.hang i r (by omega)) (c.parent i)
termination_by i
decreasing_by
  have := c.parent_le i
  omega

def find (c : Partition) (i : Nat) : Nat × Partition :=
  (c.root i, compressTo (c.root i) c i)

def union (c : Partition) (a b : Nat) : Partition :=
  let (ra, c) := c.find a
  let (rb, c) := c.find b
  if h : ra ≤ rb then c.hang rb ra h else c.hang ra rb (by omega)

def unionAll (c : Partition) (pairs : List (Nat × Nat)) : Partition :=
  pairs.foldl (fun c e => c.union e.1 e.2) c

end Partition

end LuaLift
