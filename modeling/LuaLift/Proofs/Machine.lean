/-!
Deterministic machines that report events. Two of them behave alike at two configurations when they
report the same events, finite or not, and stop with the same result or not at all. That follows from a
relation along which both machines keep moving.
-/

namespace LuaLift

structure Machine (ε γ : Type) where
  next : γ → Option (List ε × γ)

namespace Machine

variable {ε γ δ ω : Type}

inductive Steps (M : Machine ε γ) : γ → List ε → γ → Nat → Prop where
  | refl (g : γ) : Steps M g [] g 0
  | step {g h k : γ} {es fs : List ε} {n : Nat} (hg : M.next g = some (es, h))
      (hs : Steps M h fs k n) : Steps M g (es ++ fs) k (n + 1)

def Halts (M : Machine ε γ) (g : γ) (es : List ε) (h : γ) : Prop :=
  (∃ n, M.Steps g es h n) ∧ M.next h = none

def Emits (M : Machine ε γ) (g : γ) (es : List ε) : Prop :=
  ∃ fs h n, M.Steps g fs h n ∧ es <+: fs

def RunsForever (M : Machine ε γ) (g : γ) : Prop := ∀ n, ∃ es h, M.Steps g es h n

/-- The same behaviour, with what `view` and `view'` show of the configuration at the end. -/
structure SameRuns (M : Machine ε γ) (N : Machine ε δ) (view : γ → ω) (view' : δ → ω)
    (g : γ) (d : δ) : Prop where
  halts : ∀ es w, (∃ h, M.Halts g es h ∧ view h = w) ↔ ∃ h, N.Halts d es h ∧ view' h = w
  emits : ∀ es, M.Emits g es ↔ N.Emits d es
  forever : M.RunsForever g ↔ N.RunsForever d

variable {M : Machine ε γ} {N : Machine ε δ} {view : γ → ω} {view' : δ → ω}

namespace Steps

theorem one {g h : γ} {es : List ε} (hg : M.next g = some (es, h)) : M.Steps g es h 1 := by
  simpa using Steps.step hg (.refl h)

theorem trans {g h k : γ} {es fs : List ε} {m n : Nat} (hs : M.Steps g es h m)
    (ht : M.Steps h fs k n) : M.Steps g (es ++ fs) k (m + n) := by
  induction hs with
  | refl g => simpa using ht
  | @step g h i es gs m hg hs ih =>
    have := Steps.step hg (ih ht)
    rw [List.append_assoc, show m + 1 + n = m + n + 1 by omega]
    exact this

theorem after {g h k : γ} {fs : List ε} {m n : Nat} (hs : M.Steps g [] h m)
    (ht : M.Steps h fs k n) : M.Steps g fs k (m + n) := by
  simpa using hs.trans ht

theorem split {g h k : γ} {es fs : List ε} {m n : Nat} (hs : M.Steps g es h m)
    (ht : M.Steps g fs k (m + n)) : ∃ gs, fs = es ++ gs ∧ M.Steps h gs k n := by
  induction hs generalizing fs with
  | refl g => exact ⟨fs, rfl, by simpa using ht⟩
  | @step g h i es gs m hg hs ih =>
    rw [show m + 1 + n = (m + n) + 1 by omega] at ht
    cases ht with
    | step hg' ht =>
      rw [hg] at hg'
      cases hg'
      obtain ⟨ls, rfl, hl⟩ := ih ht
      exact ⟨ls, by simp, hl⟩

theorem le_of_halted {g h k : γ} {es fs : List ε} {m n : Nat} (hs : M.Steps g es h m)
    (hh : M.next h = none) (ht : M.Steps g fs k n) : n ≤ m := by
  rcases Nat.le_total n m with hnm | hmn
  · exact hnm
  · obtain ⟨l, rfl⟩ := Nat.exists_eq_add_of_le hmn
    obtain ⟨gs, -, hl⟩ := hs.split ht
    cases hl with
    | refl => exact Nat.le_refl m
    | step hg => rw [hh] at hg; cases hg

theorem end_unique {g h k : γ} {es fs : List ε} {m n : Nat} (hs : M.Steps g es h m)
    (hh : M.next h = none) (ht : M.Steps g fs k n) (hk : M.next k = none) : es = fs ∧ h = k := by
  have hnm := hs.le_of_halted hh ht
  have hmn := ht.le_of_halted hk hs
  obtain rfl : m = n := by omega
  obtain ⟨gs, rfl, hl⟩ := hs.split (n := 0) ht
  cases hl
  exact ⟨by simp, rfl⟩

end Steps

theorem runsForever_iff {g : γ} : M.RunsForever g ↔ ∀ es h, ¬ M.Halts g es h := by
  constructor
  · rintro hf es h ⟨⟨n, hs⟩, hh⟩
    obtain ⟨fs, k, ht⟩ := hf (n + 1)
    have := hs.le_of_halted hh ht
    omega
  · intro hn n
    induction n with
    | zero => exact ⟨[], g, .refl g⟩
    | succ n ih =>
      obtain ⟨es, h, hs⟩ := ih
      cases hh : M.next h with
      | none => exact absurd ⟨⟨n, hs⟩, hh⟩ (hn es h)
      | some q => exact ⟨es ++ q.1, q.2, hs.trans (.one hh)⟩

/-- Both machines come to their ends with the same result, or both move on to related configurations. -/
def Matches (M : Machine ε γ) (N : Machine ε δ) (view : γ → ω) (view' : δ → ω) (R : γ → δ → Prop)
    (g : γ) (d : δ) : Prop :=
  ∃ es g' d' k l, M.Steps g es g' k ∧ N.Steps d es d' l ∧
    (M.next g' = none ∧ N.next d' = none ∧ view g' = view' d' ∨ 0 < k ∧ 0 < l ∧ R g' d')

theorem Matches.symm {R : γ → δ → Prop} {g : γ} {d : δ} (h : Matches M N view view' R g d) :
    Matches N M view' view (fun d g => R g d) d g := by
  obtain ⟨es, g', d', k, l, hs, ht, h⟩ := h
  refine ⟨es, d', g', l, k, ht, hs, h.imp ?_ ?_⟩
  · rintro ⟨hg, hd, hv⟩
    exact ⟨hd, hg, hv.symm⟩
  · rintro ⟨hk, hl, hr⟩
    exact ⟨hl, hk, hr⟩

section Simulation

variable {R : γ → δ → Prop} (hR : ∀ g d, R g d → Matches M N view view' R g d)
include hR

theorem halts_of_matches {g : γ} {d : δ} (h : R g d) {es : List ε} {e : γ} (hg : M.Halts g es e) :
    ∃ e', N.Halts d es e' ∧ view' e' = view e := by
  obtain ⟨⟨n, hs⟩, he⟩ := hg
  induction n using Nat.strongRecOn generalizing g d es with
  | _ n ih =>
    obtain ⟨fs, g', d', k, l, hg', hd', h'⟩ := hR g d h
    rcases h' with ⟨hgh, hdh, hv⟩ | ⟨hk, hl, hr⟩
    · obtain ⟨rfl, rfl⟩ := hs.end_unique he hg' hgh
      exact ⟨d', ⟨⟨l, hd'⟩, hdh⟩, hv.symm⟩
    · obtain ⟨m, rfl⟩ := Nat.exists_eq_add_of_le (hs.le_of_halted he hg')
      obtain ⟨gs, rfl, ht⟩ := hg'.split hs
      obtain ⟨e', ⟨⟨j, hj⟩, he'⟩, hv⟩ := ih m (by omega) hr ht
      exact ⟨e', ⟨⟨l + j, hd'.trans hj⟩, he'⟩, hv⟩

theorem emits_of_matches {g : γ} {d : δ} (h : R g d) {es : List ε} (hg : M.Emits g es) :
    N.Emits d es := by
  obtain ⟨fs, e, n, hs, hp⟩ := hg
  induction n using Nat.strongRecOn generalizing g d es fs with
  | _ n ih =>
    obtain ⟨gs, g', d', k, l, hg', hd', h'⟩ := hR g d h
    rcases Nat.le_total n k with hnk | hkn
    · obtain ⟨m, rfl⟩ := Nat.exists_eq_add_of_le hnk
      obtain ⟨ls, rfl, -⟩ := hs.split hg'
      exact ⟨_, d', l, hd', hp.trans (List.prefix_append fs ls)⟩
    · obtain ⟨m, rfl⟩ := Nat.exists_eq_add_of_le hkn
      obtain ⟨ls, rfl, ht⟩ := hg'.split hs
      rcases h' with ⟨hgh, -, -⟩ | ⟨hk, hl, hr⟩
      · have := hg'.le_of_halted hgh hs
        obtain rfl : m = 0 := by omega
        cases ht
        exact ⟨gs, d', l, hd', by simpa using hp⟩
      · obtain ⟨ls', e', j, hj, hq⟩ := ih m (by omega) hr ls ht List.prefix_rfl
        exact ⟨gs ++ ls', e', l + j, hd'.trans hj, hp.trans ((List.prefix_append_right_inj gs).2 hq)⟩

end Simulation

theorem SameRuns.of_matches {R : γ → δ → Prop} (hR : ∀ g d, R g d → Matches M N view view' R g d)
    {g : γ} {d : δ} (h : R g d) : SameRuns M N view view' g d := by
  have hS : ∀ d g, R g d → Matches N M view' view (fun d g => R g d) d g :=
    fun d g hr => (hR g d hr).symm
  have halts : ∀ es w, (∃ e, M.Halts g es e ∧ view e = w) ↔ ∃ e, N.Halts d es e ∧ view' e = w := by
    intro es w
    constructor
    · rintro ⟨e, he, rfl⟩
      exact halts_of_matches hR h he
    · rintro ⟨e, he, rfl⟩
      exact halts_of_matches (R := fun d g => R g d) hS h he
  refine ⟨halts, fun es => ⟨emits_of_matches hR h, emits_of_matches (R := fun d g => R g d) hS h⟩, ?_⟩
  rw [runsForever_iff, runsForever_iff]
  constructor
  · intro hn es e he
    obtain ⟨e', he', -⟩ := (halts es _).2 ⟨e, he, rfl⟩
    exact hn es e' he'
  · intro hn es e he
    obtain ⟨e', he', -⟩ := (halts es _).1 ⟨e, he, rfl⟩
    exact hn es e' he'

theorem SameRuns.refl (M : Machine ε γ) (view : γ → ω) (g : γ) : SameRuns M M view view g g :=
  ⟨fun _ _ => Iff.rfl, fun _ => Iff.rfl, Iff.rfl⟩

theorem SameRuns.map_view {ω' : Type} {g : γ} {d : δ} (h : SameRuns M N view view' g d) (f : ω → ω') :
    SameRuns M N (fun g => f (view g)) (fun d => f (view' d)) g d := by
  refine ⟨fun es w => ⟨?_, ?_⟩, h.emits, h.forever⟩
  · rintro ⟨e, he, rfl⟩
    obtain ⟨e', he', hv⟩ := (h.halts es _).1 ⟨e, he, rfl⟩
    exact ⟨e', he', congrArg f hv⟩
  · rintro ⟨e, he, rfl⟩
    obtain ⟨e', he', hv⟩ := (h.halts es _).2 ⟨e, he, rfl⟩
    exact ⟨e', he', congrArg f hv⟩

theorem SameRuns.trans {ζ : Type} {O : Machine ε ζ} {view'' : ζ → ω} {g : γ} {d : δ} {z : ζ}
    (h : SameRuns M N view view' g d) (h' : SameRuns N O view' view'' d z) :
    SameRuns M O view view'' g z :=
  ⟨fun es w => (h.halts es w).trans (h'.halts es w), fun es => (h.emits es).trans (h'.emits es),
    h.forever.trans h'.forever⟩

end Machine

end LuaLift
