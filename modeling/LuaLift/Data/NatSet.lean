namespace LuaLift

structure NatSet where
  toList : List Nat
  ascending : toList.Pairwise (· < ·)
  deriving DecidableEq

namespace NatSet

theorem eq_of_toList {a b : NatSet} (h : a.toList = b.toList) : a = b := by
  cases a; cases b; cases h; rfl

instance : Repr NatSet := ⟨fun s n => reprPrec s.toList n⟩
instance : Membership Nat NatSet := ⟨fun s x => x ∈ s.toList⟩
instance (x : Nat) (s : NatSet) : Decidable (x ∈ s) := inferInstanceAs (Decidable (x ∈ s.toList))

def empty : NatSet := ⟨[], .nil⟩

instance : EmptyCollection NatSet := ⟨empty⟩
instance : Inhabited NatSet := ⟨empty⟩

theorem eq_of_pairwise {l m : List Nat} (hl : l.Pairwise (· < ·)) (hm : m.Pairwise (· < ·))
    (h : ∀ x, x ∈ l ↔ x ∈ m) : l = m := by
  induction l generalizing m with
  | nil =>
    cases m with
    | nil => rfl
    | cons y ys => exact absurd ((h y).2 (by simp)) List.not_mem_nil
  | cons x xs ih =>
    cases m with
    | nil => exact absurd ((h x).1 (by simp)) List.not_mem_nil
    | cons y ys =>
      have hx := List.pairwise_cons.1 hl
      have hy := List.pairwise_cons.1 hm
      have hxy : x = y := by
        have h₁ := List.mem_cons.1 ((h x).1 (by simp))
        have h₂ := List.mem_cons.1 ((h y).2 (by simp))
        rcases h₁ with h₁ | h₁
        · exact h₁
        · rcases h₂ with h₂ | h₂
          · exact h₂.symm
          · have := hx.1 y h₂
            have := hy.1 x h₁
            omega
      subst hxy
      refine congrArg _ (ih hx.2 hy.2 fun z => ?_)
      have hz := h z
      simp only [List.mem_cons] at hz
      by_cases he : z = x
      · subst he
        exact ⟨fun hm => absurd (hx.1 z hm) (Nat.lt_irrefl _),
          fun hm => absurd (hy.1 z hm) (Nat.lt_irrefl _)⟩
      · simpa [he] using hz

theorem ext {a b : NatSet} (h : ∀ x, x ∈ a ↔ x ∈ b) : a = b :=
  eq_of_toList (eq_of_pairwise a.ascending b.ascending h)

def place (x : Nat) : List Nat → List Nat
  | [] => [x]
  | y :: ys => if x < y then x :: y :: ys else if x = y then y :: ys else y :: place x ys

theorem mem_place {x z : Nat} {l : List Nat} : z ∈ place x l ↔ z = x ∨ z ∈ l := by
  induction l with
  | nil => simp [place]
  | cons y ys ih =>
    unfold place
    split
    · simp
    · split
      · next h => subst h; simp
      · simp only [List.mem_cons, ih]
        exact or_left_comm

theorem pairwise_place {x : Nat} {l : List Nat} (h : l.Pairwise (· < ·)) :
    (place x l).Pairwise (· < ·) := by
  induction l with
  | nil => simp [place]
  | cons y ys ih =>
    have hy := List.pairwise_cons.1 h
    unfold place
    split
    · next hlt =>
      refine List.pairwise_cons.2 ⟨fun z hz => ?_, h⟩
      rcases List.mem_cons.1 hz with rfl | hz
      · exact hlt
      · exact Nat.lt_trans hlt (hy.1 z hz)
    · split
      · exact h
      · refine List.pairwise_cons.2 ⟨fun z hz => ?_, ih hy.2⟩
        rcases mem_place.1 hz with rfl | hz
        · omega
        · exact hy.1 z hz

def insert (s : NatSet) (x : Nat) : NatSet := ⟨place x s.toList, pairwise_place s.ascending⟩

@[simp] theorem mem_insert {s : NatSet} {x z : Nat} : z ∈ s.insert x ↔ z = x ∨ z ∈ s := mem_place

@[simp] theorem not_mem_empty {z : Nat} : z ∉ (∅ : NatSet) := List.not_mem_nil

def insertAll (s : NatSet) (l : List Nat) : NatSet := l.foldl insert s

@[simp] theorem mem_insertAll {s : NatSet} {l : List Nat} {z : Nat} :
    z ∈ s.insertAll l ↔ z ∈ s ∨ z ∈ l := by
  induction l generalizing s with
  | nil => simp [insertAll]
  | cons x xs ih =>
    change z ∈ (s.insert x).insertAll xs ↔ _
    rw [ih, mem_insert, List.mem_cons, or_left_comm, or_assoc]

def ofList (l : List Nat) : NatSet := empty.insertAll l

@[simp] theorem mem_ofList {l : List Nat} {z : Nat} : z ∈ ofList l ↔ z ∈ l := by
  rw [ofList, mem_insertAll]
  exact or_iff_right not_mem_empty

def union (s t : NatSet) : NatSet := s.insertAll t.toList

instance : Union NatSet := ⟨union⟩

@[simp] theorem mem_union {s t : NatSet} {z : Nat} : z ∈ s ∪ t ↔ z ∈ s ∨ z ∈ t := mem_insertAll

def filter (s : NatSet) (p : Nat → Bool) : NatSet := ⟨s.toList.filter p, s.ascending.filter p⟩

@[simp] theorem mem_filter {s : NatSet} {p : Nat → Bool} {z : Nat} :
    z ∈ s.filter p ↔ z ∈ s ∧ p z = true := List.mem_filter

def eraseAll (s : NatSet) (l : List Nat) : NatSet := s.filter fun x => !l.contains x

@[simp] theorem mem_eraseAll {s : NatSet} {l : List Nat} {z : Nat} :
    z ∈ s.eraseAll l ↔ z ∈ s ∧ z ∉ l := by
  simp [eraseAll]

end NatSet

end LuaLift
