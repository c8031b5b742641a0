import LuaLift.Data.Total

namespace LuaLift

variable {α : Type} (f : α → Nat)

theorem total_append (l r : List α) : total f (l ++ r) = total f l + total f r := by
  induction l with
  | nil => exact (Nat.zero_add _).symm
  | cons a l ih => simp [total, ih, Nat.add_assoc]

theorem total_map {β : Type} (g : β → α) (l : List β) : total f (l.map g) = total (fun b => f (g b)) l := by
  induction l with
  | nil => rfl
  | cons b l ih => rw [List.map_cons, total, total, ih]

theorem total_flatMap {β : Type} (g : β → List α) (l : List β) :
    total f (l.flatMap g) = total (fun b => total f (g b)) l := by
  induction l with
  | nil => rfl
  | cons b l ih => rw [List.flatMap_cons, total_append, ih, total]

theorem total_add (g : α → Nat) (l : List α) : total f l + total g l = total (fun a => f a + g a) l := by
  induction l with
  | nil => rfl
  | cons a l ih =>
    rw [total, total, total, ← ih]
    omega

variable {f} in
theorem total_congr {g : α → Nat} {l : List α} (h : ∀ a ∈ l, f a = g a) : total f l = total g l := by
  induction l with
  | nil => rfl
  | cons a l ih => rw [total, total, h a (.head _), ih fun b hb => h b (.tail _ hb)]

theorem total_perm {l l' : List α} (h : l.Perm l') : total f l = total f l' := by
  induction h with
  | nil => rfl
  | cons a _ ih => rw [total, total, ih]
  | swap a b l => rw [total, total, total, total, Nat.add_left_comm]
  | trans _ _ ih ih' => rw [ih, ih']

theorem le_total_of_mem {f : α → Nat} {l : List α} {a : α} (h : a ∈ l) : f a ≤ total f l := by
  induction l with
  | nil => cases h
  | cons b l ih =>
    rcases List.mem_cons.1 h with rfl | h
    · exact Nat.le_add_right _ _
    · exact Nat.le_trans (ih h) (Nat.le_add_left _ _)

theorem total_modify {l : List α} {i : Nat} {a : α} (h : l[i]? = some a) (g : α → α) :
    total f (l.modify i g) + f a = total f l + f (g a) := by
  induction l generalizing i with
  | nil => cases h
  | cons b l ih =>
    cases i with
    | zero =>
      cases h
      simp only [List.modify_zero_cons, total]
      omega
    | succ i =>
      have := ih (i := i) h
      simp only [List.modify_succ_cons, total]
      omega

theorem add_le_total {f : α → Nat} {l : List α} {i j : Nat} {a b : α} (hi : l[i]? = some a) (hj : l[j]? = some b)
    (hij : i ≠ j) : f a + f b ≤ total f l := by
  induction l generalizing i j with
  | nil => cases hi
  | cons c l ih =>
    cases i with
    | zero =>
      cases j with
      | zero => exact absurd rfl hij
      | succ j =>
        cases hi
        exact Nat.add_le_add_left (le_total_of_mem (List.mem_of_getElem? (i := j) hj)) _
    | succ i =>
      cases j with
      | zero =>
        cases hj
        rw [Nat.add_comm]
        exact Nat.add_le_add_left (le_total_of_mem (List.mem_of_getElem? (i := i) hi)) _
      | succ j => exact Nat.le_trans (ih hi hj (fun h => hij (congrArg _ h))) (Nat.le_add_left _ _)

end LuaLift
