import LuaLift.Lift
import LuaLift.Proofs.Loops.Plain
import Mathlib

namespace LuaLift

open Machine

variable {σ : Type}

namespace Proto

def shortened (o : Options) (p : Proto) : Proto := if o.skipTestFolding then p else p.foldedTests

theorem shortened_folds (o : Options) {m : Meaning σ} {p : Proto} (hp : p.WellShaped) :
    Folds m p (p.shortened o) := by
  unfold shortened
  split
  · exact .refl hp
  · exact foldedTests_folds hp

theorem structure?_eq_ok {o : Options} (ho : o.skipForLoops = true) {p : Proto} {t : Locals} {r : Routine}
    (h : p.structure? o t = .ok r) : (Flow.of (p.shortened o)).Reducible ∧
      (Plan.of (p.shortened o) (.of (p.shortened o))
        ((p.shortened o).classify (.of (p.shortened o)) t false).loops).build = .ok r.body := by
  unfold structure? at h
  unfold shortened
  simp only [ho, Bool.not_true, proto_classify] at h
  generalize (if o.skipTestFolding then p else p.foldedTests) = q at h ⊢
  split at h
  · cases h
  · next hside =>
    refine ⟨hside, ?_⟩
    cases hb : (Plan.of q (.of q) (q.classify (.of q) t false).loops).build with
    | error e => rw [hb] at h; cases h
    | ok body => rw [hb] at h; cases h; rfl

/-- The tree executes the statements of the blocks, with the same outcomes of the same elementary tests,
and stops in the same state or not at all. -/
theorem structure_sameRuns {o : Options} (ho : o.skipForLoops = true) {p : Proto}
    (hp : p.violation? = none) (hret : p.Returning) {t : Locals} {r : Routine}
    (hr : p.structure? o t = .ok r) (m : Meaning σ) (s : σ) :
    SameRuns (p.machine m m.decide) (Node.machine m m.decide) (fun c => some c.2) TreeConfig.final
      (some 0, s) ⟨r.body, [], s⟩ := by
  have hfolds := shortened_folds o (m := m) (wellShaped_of_violation hp)
  obtain ⟨hred, hbuild⟩ := structure?_eq_ok ho hr
  have hsound := Plan.sound_of_classify hfolds.wellShaped (hfolds.returning hret) hred t
  exact ((hfolds.sameRuns s).map_view some).trans (hsound.sameRuns hbuild m s)

def search : Proto :=
  { id := 0
    blocks := [
      ⟨0, 0, 0, [.call (.global "f") [] 0], .always 1⟩,
      ⟨1, 0, 0, [], .branch (.global "a") 2 4⟩,
      ⟨2, 0, 0, [.call (.global "g") [] 0], .branch (.global "b") 3 1⟩,
      ⟨3, 0, 0, [.ret [.global "c"] 0], .leave⟩,
      ⟨4, 0, 0, [.ret [] 0], .leave⟩] }

theorem structure_sameRuns_search : ∃ r, search.structure? { skipForLoops := true } ∅ = .ok r ∧
    SameRuns (search.machine .counting Meaning.counting.decide)
      (Node.machine .counting Meaning.counting.decide) (fun c => some c.2) TreeConfig.final
      (some 0, 0) ⟨r.body, [], 0⟩ := by
  have hok : (search.structure? { skipForLoops := true } ∅).isOk = true := by cbv
  cases h : search.structure? { skipForLoops := true } ∅ with
  | error e => simp [h, Except.isOk, Except.toBool] at hok
  | ok r =>
    exact ⟨r, rfl, structure_sameRuns rfl (by cbv) (by cbv) h .counting 0⟩

end Proto

end LuaLift
