import LuaLift.Data.Partition
import Mathlib.Logic.Function.Iterate

namespace LuaLift.Partition

variable {c : Partition} {a b i x : Nat}

def Same (c : Partition) (a b : Nat) : Prop := c.root a = c.root b

theorem parent_root (c : Partition) (i : Nat) : c.parent (c.root i) = c.root i := by
  induction i using Nat.strongRecOn with
  | _ i ih =>
    unfold root
    split
    · assumption
    · next h =>
      have := c.parent_le i
      exact ih _ (by omega)

theorem root_eq_self (h : c.parent i = i) : c.root i = i := by
  unfold root
  rw [if_pos h]

theorem root_root (c : Partition) (i : Nat) : c.root (c.root i) = c.root i :=
  root_eq_self (c.parent_root i)

theorem root_parent (c : Partition) (i : Nat) : c.root (c.parent i) = c.root i := by
  rcases Decidable.em (c.parent i = i) with h | h
  · rw [h]
  · rw [root.eq_def c i, if_neg h]

theorem root_discrete (n i : Nat) : (discrete n).root i = i := by
  refine root_eq_self ?_
  unfold parent discrete
  by_cases h : i < n
  · simp [List.getElem?_range h]
  · have hn : (List.range n)[i]? = none := by simpa using h
    simp [hn]

theorem parent_hang {p : Nat} (h : p ≤ i) :
    (c.hang i p h).parent x = if x = i ∧ i < c.parents.length then p else c.parent x := by
  unfold parent hang
  simp only [List.getElem?_set]
  by_cases hx : i = x
  · subst hx
    by_cases hl : i < c.parents.length
    · simp [hl]
    · simp [hl]
  · simp [hx, Ne.symm hx]

theorem root_hang_root (c : Partition) (i x : Nat) : (c.hang i (c.root i) (c.root_le i)).root x = c.root x := by
  induction x using Nat.strongRecOn with
  | _ x ih =>
    have hp := parent_hang (c := c) (x := x) (c.root_le i)
    by_cases hself : (c.hang i (c.root i) (c.root_le i)).parent x = x
    · rw [root_eq_self hself]
      split at hp
      · next h =>
        rw [hself] at hp
        rw [h.1, ← hp, h.1]
      · rw [root_eq_self (hp.symm.trans hself)]
    · have hle := (c.hang i (c.root i) (c.root_le i)).parent_le x
      rw [← root_parent, ih _ (by omega), hp]
      split
      · next h => rw [root_root, h.1]
      · exact c.root_parent x

theorem length_hang {p : Nat} (h : p ≤ i) : (c.hang i p h).parents.length = c.parents.length := by
  simp [hang]

theorem compressTo_keeps {r : Nat} (hr : c.root i = r) :
    (compressTo r c i).parents.length = c.parents.length ∧
      ∀ x, (compressTo r c i).root x = c.root x := by
  induction i using Nat.strongRecOn generalizing c with
  | _ i ih =>
    unfold compressTo
    split
    · exact ⟨rfl, fun _ => rfl⟩
    · next h =>
      subst hr
      have hlt := c.parent_le i
      have hroot : (c.hang i (c.root i) (c.root_le i)).root (c.parent i) = c.root i := by
        rw [root_hang_root, root_parent]
      obtain ⟨hlen, hkeeps⟩ := ih (c.parent i) (by omega) hroot
      exact ⟨hlen.trans (length_hang _), fun x => (hkeeps x).trans (c.root_hang_root i x)⟩

theorem root_hang {p : Nat} (h : p ≤ i) (hi : c.parent i = i) (hp : c.parent p = p)
    (hl : i < c.parents.length) : (c.hang i p h).root x = if c.root x = i then p else c.root x := by
  have hparent (y : Nat) : (c.hang i p h).parent y = if y = i then p else c.parent y := by
    simp [parent_hang, hl]
  have hrootp : (c.hang i p h).root p = p := root_eq_self (by rw [hparent]; split <;> simp [hp])
  induction x using Nat.strongRecOn with
  | _ x ih =>
    by_cases hx : x = i
    · subst hx
      rw [← root_parent, hparent, if_pos rfl, hrootp, root_eq_self hi, if_pos rfl]
    · by_cases hself : c.parent x = x
      · have : (c.hang i p h).parent x = x := by rw [hparent, if_neg hx, hself]
        rw [root_eq_self this, root_eq_self hself, if_neg hx]
      · have hle := c.parent_le x
        rw [← root_parent, hparent, if_neg hx, ih _ (by omega), root_parent]

@[simp] theorem length_find (c : Partition) (i : Nat) : (c.find i).2.parents.length = c.parents.length :=
  (compressTo_keeps rfl).1

@[simp] theorem root_find (c : Partition) (i x : Nat) : (c.find i).2.root x = c.root x :=
  (compressTo_keeps rfl).2 x

theorem exists_iterate_parent (c : Partition) (i : Nat) : ∃ k ≤ i, c.parent^[k] i = c.root i := by
  induction i using Nat.strongRecOn with
  | _ i ih =>
    by_cases h : c.parent i = i
    · exact ⟨0, Nat.zero_le i, (root_eq_self h).symm⟩
    · have hlt : c.parent i < i := Nat.lt_of_le_of_ne (c.parent_le i) h
      obtain ⟨k, hk, he⟩ := ih _ hlt
      exact ⟨k + 1, by omega, he.trans (c.root_parent i)⟩

theorem iterate_parent_le (c : Partition) (i k : Nat) : c.parent^[k] i ≤ i := by
  induction k with
  | zero => exact Nat.le_refl i
  | succ k ih =>
    rw [Function.iterate_succ_apply']
    exact Nat.le_trans (c.parent_le _) ih

theorem iterate_parent_hang {p : Nat} (h : p ≤ i) (hx : x < i) (k : Nat) :
    (c.hang i p h).parent^[k] x = c.parent^[k] x := by
  induction k with
  | zero => rfl
  | succ k ih =>
    have hne : c.parent^[k] x ≠ i := Nat.ne_of_lt (Nat.lt_of_le_of_lt (c.iterate_parent_le x k) hx)
    rw [Function.iterate_succ_apply', Function.iterate_succ_apply', ih, parent_hang, if_neg fun h => hne h.1]

theorem parent_compressTo {r : Nat} (hr : c.root i = r) :
    (∀ k, (compressTo r c i).parent (c.parent^[k] i) = r) ∧
      ∀ x, (∀ k, c.parent^[k] i ≠ x) → (compressTo r c i).parent x = c.parent x := by
  induction i using Nat.strongRecOn generalizing c with
  | _ i ih =>
    have hle := c.root_le i
    unfold compressTo
    split
    · next h =>
      have hself : c.parent i = i := h.resolve_right (by omega)
      refine ⟨fun k => ?_, fun _ _ => rfl⟩
      rw [Function.iterate_fixed hself, hself, ← hr, root_eq_self hself]
    · next h =>
      subst hr
      have hlt : c.parent i < i := Nat.lt_of_le_of_ne (c.parent_le i) fun he => h (.inl he)
      have hlen : i < c.parents.length := by
        by_contra hlen
        have : c.parents[i]? = none := by simpa using hlen
        exact h (.inl (by simp [parent, this]))
      have hroot : (c.hang i (c.root i) hle).root (c.parent i) = c.root i := by
        rw [root_hang_root, root_parent]
      obtain ⟨hon, hoff⟩ := ih (c.parent i) hlt hroot
      have hchain (k : Nat) := iterate_parent_hang (c := c) hle hlt k
      refine ⟨fun k => ?_, fun x hx => ?_⟩
      · cases k with
        | zero =>
          -- what is hung later lies further up
          have habove : ∀ k, (c.hang i (c.root i) hle).parent^[k] (c.parent i) ≠ i := fun k => by
            have := c.iterate_parent_le (c.parent i) k
            rw [hchain]
            omega
          rw [Function.iterate_zero_apply, hoff i habove, parent_hang, if_pos ⟨rfl, hlen⟩]
        | succ k => rw [Function.iterate_succ_apply, ← hchain, hon]
      · have hxi : x ≠ i := fun he => hx 0 he.symm
        have hout : ∀ k, (c.hang i (c.root i) hle).parent^[k] (c.parent i) ≠ x := fun k => by
          rw [hchain, ← Function.iterate_succ_apply]
          exact hx (k + 1)
        rw [hoff x hout, parent_hang, if_neg fun h => hxi h.1]

def link (c : Partition) (a b : Nat) : Partition :=
  if h : c.root a ≤ c.root b then c.hang (c.root b) (c.root a) h else c.hang (c.root a) (c.root b) (by omega)

theorem union_eq_link (c : Partition) (a b : Nat) : c.union a b = ((c.find a).2.find b).2.link a b := by
  have ha : ((c.find a).2.find b).2.root a = (c.find a).1 := by
    rw [root_find, root_find]
    rfl
  have hb : ((c.find a).2.find b).2.root b = ((c.find a).2.find b).1 := root_find _ b b
  simp only [union, link, ha, hb]

theorem length_link (c : Partition) (a b : Nat) : (c.link a b).parents.length = c.parents.length := by
  unfold link
  split <;> exact length_hang _

theorem root_link (ha : a < c.parents.length) (hb : b < c.parents.length) : (c.link a b).root x =
    if c.root x = c.root a ∨ c.root x = c.root b then min (c.root a) (c.root b) else c.root x := by
  have hla := c.root_le a
  have hlb := c.root_le b
  unfold link
  split
  · next h =>
    rw [root_hang h (c.parent_root b) (c.parent_root a) (by omega), Nat.min_eq_left h]
    grind
  · next h =>
    rw [root_hang (by omega) (c.parent_root a) (c.parent_root b) (by omega), Nat.min_eq_right (by omega)]
    grind

theorem length_union (c : Partition) (a b : Nat) : (c.union a b).parents.length = c.parents.length := by
  rw [union_eq_link, length_link, length_find, length_find]

theorem root_union (ha : a < c.parents.length) (hb : b < c.parents.length) : (c.union a b).root x =
    if c.root x = c.root a ∨ c.root x = c.root b then min (c.root a) (c.root b) else c.root x := by
  rw [union_eq_link, root_link (by simpa using ha) (by simpa using hb)]
  simp only [root_find]

theorem same_union (ha : a < c.parents.length) (hb : b < c.parents.length) : (c.union a b).Same a b := by
  simp [Same, root_union ha hb]

theorem Same.union {x y : Nat} (h : c.Same x y) (ha : a < c.parents.length) (hb : b < c.parents.length) :
    (c.union a b).Same x y := by
  unfold Same at h ⊢
  rw [root_union ha hb, root_union ha hb, h]

theorem root_union_constant {α : Type} {f : Nat → α} (hf : ∀ x, f (c.root x) = f x)
    (ha : a < c.parents.length) (hb : b < c.parents.length) (hab : f a = f b) (x : Nat) :
    f ((c.union a b).root x) = f x := by
  rw [root_union ha hb]
  split
  · next h =>
    have hx : f x = f a := by
      rcases h with h | h
      · rw [← hf x, h, hf]
      · rw [← hf x, h, hf, hab]
    rcases Nat.le_total (c.root a) (c.root b) with hle | hle
    · rw [Nat.min_eq_left hle, hf, hx]
    · rw [Nat.min_eq_right hle, hf, hx, hab]
  · exact hf x

theorem root_unionAll_constant {α : Type} {f : Nat → α} (hf : ∀ x, f (c.root x) = f x) {pairs : List (Nat × Nat)}
    (h : ∀ e ∈ pairs, e.1 < c.parents.length ∧ e.2 < c.parents.length ∧ f e.1 = f e.2) (x : Nat) :
    f ((c.unionAll pairs).root x) = f x := by
  induction pairs generalizing c with
  | nil => exact hf x
  | cons e pairs ih =>
    obtain ⟨ha, hb, hab⟩ := h e (.head _)
    apply ih (root_union_constant hf ha hb hab)
    intro e' he'
    rw [length_union]
    exact h e' (.tail _ he')

end LuaLift.Partition
