import LuaLift.Syntax.Expr

namespace LuaLift

structure Env (V W : Type) where
  cell : Cell → V
  world : W

variable {V W : Type}

namespace Env

def set (e : Env V W) (c : Cell) (x : V) : Env V W :=
  { e with cell := fun d => if d = c then x else e.cell d }

def setAll (e : Env V W) : List Cell → List V → Env V W
  | c :: cs, x :: xs => (e.set c x).setAll cs xs
  | _, _ => e

def apart (hidden : List Cell) (e : Env V W) : (Cell → Option V) × W :=
  (fun c => if c ∈ hidden then none else some (e.cell c), e.world)

variable {e : Env V W} {c d : Cell} {x y : V}

@[simp] theorem cell_set_self : (e.set c x).cell c = x := if_pos rfl

theorem cell_set_of_ne (h : d ≠ c) : (e.set c x).cell d = e.cell d := if_neg h

@[simp] theorem world_set : (e.set c x).world = e.world := rfl

theorem set_comm (h : c ≠ d) : (e.set c x).set d y = (e.set d y).set c x := by
  simp only [set, mk.injEq, and_true]
  funext b
  by_cases hc : b = c
  · subst hc
    simp [h]
  · simp [hc]

@[simp] theorem set_set : (e.set c x).set c y = e.set c y := by
  simp only [set, mk.injEq, and_true]
  funext b
  by_cases hc : b = c <;> simp [hc]

theorem apart_eq_apart {hidden : List Cell} {e e' : Env V W} : e.apart hidden = e'.apart hidden ↔
    (∀ c, c ∉ hidden → e.cell c = e'.cell c) ∧ e.world = e'.world := by
  simp only [apart, Prod.mk.injEq, and_congr_left_iff]
  intro _
  constructor
  · intro h c hc
    have := congrFun h c
    rw [if_neg hc, if_neg hc] at this
    exact Option.some.inj this
  · intro h
    funext c
    by_cases hc : c ∈ hidden
    · rw [if_pos hc, if_pos hc]
    · rw [if_neg hc, if_neg hc, h c hc]

theorem apart_mono {hidden more : List Cell} {e e' : Env V W} (hsub : hidden ⊆ more)
    (h : e.apart hidden = e'.apart hidden) : e.apart more = e'.apart more := by
  rw [apart_eq_apart] at h ⊢
  exact ⟨fun c hc => h.1 c fun hc' => hc (hsub hc'), h.2⟩

theorem apart_set_congr {hidden : List Cell} {e e' : Env V W} (h : e.apart hidden = e'.apart hidden) (c : Cell)
    (x : V) : (e.set c x).apart hidden = (e'.set c x).apart hidden := by
  rw [apart_eq_apart] at h ⊢
  refine ⟨fun d hd => ?_, h.2⟩
  by_cases hdc : d = c
  · rw [hdc, cell_set_self, cell_set_self]
  · rw [cell_set_of_ne hdc, cell_set_of_ne hdc, h.1 d hd]

theorem apart_world_congr {hidden : List Cell} {e e' : Env V W} (h : e.apart hidden = e'.apart hidden) (g : W → W) :
    apart hidden { e with world := g e.world } = apart hidden { e' with world := g e'.world } := by
  rw [apart_eq_apart] at h ⊢
  exact ⟨h.1, congrArg g h.2⟩

theorem apart_of_keeps {hidden less : List Cell} {e₁ e₂ e₁' e₂' : Env V W} (h : e₁.apart less = e₂.apart less)
    (h' : e₁'.apart hidden = e₂'.apart hidden)
    (hkeeps : ∀ c ∈ hidden, c ∉ less → e₁.cell c = e₂.cell c → e₁'.cell c = e₂'.cell c) :
    e₁'.apart less = e₂'.apart less := by
  rw [apart_eq_apart] at h h' ⊢
  refine ⟨fun c hc => ?_, h'.2⟩
  by_cases hh : c ∈ hidden
  · exact hkeeps c hh hc (h.1 c hc)
  · exact h'.1 c hh

theorem apart_set {hidden : List Cell} (h : c ∈ hidden) : (e.set c x).apart hidden = e.apart hidden := by
  simp only [apart, world_set, Prod.mk.injEq, and_true]
  funext b
  by_cases hb : b ∈ hidden
  · simp [hb]
  · have hne : b ≠ c := fun hbc => hb (hbc ▸ h)
    simp [hb, cell_set_of_ne hne]

theorem set_eq_of_apart {e e' : Env V W} (h : e.apart [c] = e'.apart [c]) (x : V) : e.set c x = e'.set c x := by
  obtain ⟨hcell, hworld⟩ := apart_eq_apart.1 h
  simp only [set, mk.injEq, hworld, and_true]
  funext d
  by_cases hd : d = c
  · rw [if_pos hd, if_pos hd]
  · rw [if_neg hd, if_neg hd, hcell d (by simpa using hd)]

theorem setAll_set {cs : List Cell} (hc : c ∉ cs) (e : Env V W) (xs : List V) :
    (e.set c x).setAll cs xs = (e.setAll cs xs).set c x := by
  induction cs generalizing e xs with
  | nil => rfl
  | cons d cs ih =>
    cases xs with
    | nil => rfl
    | cons y xs =>
      simp only [List.mem_cons, not_or] at hc
      rw [setAll, setAll, set_comm hc.1, ih hc.2]

section SetAll

variable {hidden cs : List Cell}

theorem cell_setAll_of_notMem (h : c ∉ cs) (xs : List V) : (e.setAll cs xs).cell c = e.cell c := by
  induction cs generalizing e xs with
  | nil => rfl
  | cons d cs ih =>
    cases xs with
    | nil => rfl
    | cons x xs =>
      rw [List.mem_cons, not_or] at h
      rw [setAll, ih h.2, cell_set_of_ne h.1]

theorem cell_setAll_const (cs : List Cell) (x : V) (e : Env V W) :
    (e.setAll cs (cs.map fun _ => x)).cell c = if c ∈ cs then x else e.cell c := by
  induction cs generalizing e with
  | nil => rfl
  | cons d cs ih =>
    rw [List.map_cons, setAll, ih]
    by_cases hcs : c ∈ cs
    · rw [if_pos hcs, if_pos (.tail _ hcs)]
    · rw [if_neg hcs]
      by_cases hd : c = d
      · rw [hd, cell_set_self, if_pos (.head _)]
      · rw [cell_set_of_ne hd, if_neg (by simp [hd, hcs])]

theorem setAll_comm {ds : List Cell} (h : ∀ c ∈ cs, c ∉ ds) (xs ys : List V) :
    (e.setAll cs xs).setAll ds ys = (e.setAll ds ys).setAll cs xs := by
  induction cs generalizing e xs with
  | nil => rfl
  | cons c cs ih =>
    cases xs with
    | nil => rfl
    | cons x xs => rw [setAll, ih fun d hd => h d (.tail _ hd), setAll_set (h c (.head _)), setAll]

theorem apart_setAll (h : ∀ c ∈ cs, c ∈ hidden) (xs : List V) : (e.setAll cs xs).apart hidden = e.apart hidden := by
  induction cs generalizing e xs with
  | nil => rfl
  | cons c cs ih =>
    cases xs with
    | nil => rfl
    | cons x xs => rw [setAll, ih fun d hd => h d (.tail _ hd), apart_set (h c (.head _))]

theorem apart_setAll_congr {e e' : Env V W} (h : e.apart hidden = e'.apart hidden) (xs : List V) :
    (e.setAll cs xs).apart hidden = (e'.setAll cs xs).apart hidden := by
  induction cs generalizing e e' xs with
  | nil => exact h
  | cons c cs ih =>
    cases xs with
    | nil => exact h
    | cons x xs => exact ih (apart_set_congr h c x) xs

end SetAll

end Env

end LuaLift
