import LuaLift.Proofs.Structure

/-!
Functions that fall off their end. Behind the last statement of a block that leaves, a region comes to its
end. Outside loops nothing is left to do then, but inside a loop the tree would go on with the next
iteration: only there a block has to return.
-/

namespace LuaLift

open Machine

namespace ShapedLoop

variable (l : ShapedLoop) (f : Flow)

def beforeFollow : List BlockId := (List.range f.size).filter (l.shape.follow? ≠ some ·)

def reach : List BlockId := (f.graph.walkIn (l.beforeFollow f) [l.header]).postorder

variable {l f}

theorem mem_reach_iff {b : BlockId} : b ∈ l.reach f ↔ l.header ∈ l.beforeFollow f ∧
    f.graph.ReachesIn (· ∈ l.beforeFollow f) l.header b := by
  simp [reach, Digraph.mem_walkIn]

theorem mem_reach_successor {a b : BlockId} (ha : a ∈ l.reach f) (hb : b ∈ f.successors a)
    (hf : b ∈ l.beforeFollow f) : b ∈ l.reach f := by
  rw [mem_reach_iff] at ha ⊢
  exact ⟨ha.1, ha.2.tail ⟨hb, hf⟩⟩

end ShapedLoop

def Proto.ReturningInLoops (p : Proto) (t : Locals) : Prop :=
  (p.classify (.of p) t false).loops.all fun l => (l.reach (.of p)).all fun b =>
    !(p.jump b).targets.isEmpty || (p.body b).getLast?.any Stmt.isReturn

namespace Plan

variable {pl : Plan} {T : Placed} {fr : List Frame}

section Reach

variable (hT : pl.Layout T) (hpl : pl.Fits) {l : ShapedLoop} {b : BlockId}
include hT hpl

theorem Layout.mem_beforeFollow (hr : pl.flow.isReachable b = true) (hb : (b, fr) ∈ T)
    (hF : pl.frame l ∈ fr) : b ∈ l.beforeFollow pl.flow := by
  have hne : l.shape.follow? ≠ some b := (hT.placed hb).follow _ hF
  simpa [ShapedLoop.beforeFollow, hne] using hpl.rooted.lt_size hr

theorem Layout.header_mem_reach (hr : pl.flow.isReachable b = true) (hb : (b, fr) ∈ T)
    (hF : pl.frame l ∈ fr) (hh : l.header = b) : b ∈ l.reach pl.flow := by
  subst hh
  rw [ShapedLoop.mem_reach_iff]
  exact ⟨hT.mem_beforeFollow hpl hr hb hF, .refl⟩

theorem Layout.mem_reach (hr : pl.flow.isReachable b = true) (hb : (b, fr) ∈ T) (hF : pl.frame l ∈ fr) :
    b ∈ l.reach pl.flow := by
  have along {c : BlockId} (hc : pl.flow.graph.Reaches 0 c) :
      ∃ fr', (c, fr') ∈ T ∧ (pl.frame l ∈ fr' → c ∈ l.reach pl.flow) := by
    induction hc with
    | refl =>
      obtain ⟨kept, hk, hkept⟩ := hT.root.placed
      refine ⟨kept, hk, fun hF => hT.header_mem_reach hpl (hpl.rooted.isReachable_iff.2 .refl) hk hF ?_⟩
      exact (hkept _ hF).resolve_left (by simp)
    | @tail a c ha hc ih =>
      obtain ⟨fr', ha', ih⟩ := ih
      have hca : c ∈ (pl.proto.jump a).targets := by
        rw [← hpl.successors]
        exact hc
      have hr := hpl.rooted.isReachable_iff.2 (ha.tail hc)
      obtain ⟨kept, hk, hkept⟩ := ((hT.placed ha').settles c hca).placed
      refine ⟨kept, hk, fun hF => ?_⟩
      rcases hkept _ hF with hF' | hh
      · exact ShapedLoop.mem_reach_successor (ih hF') hc (hT.mem_beforeFollow hpl hr hk hF)
      · exact hT.header_mem_reach hpl hr hk hF hh
  obtain ⟨fr', hb', h⟩ := along (hpl.rooted.isReachable_iff.1 hr)
  exact h (hT.unique hb' hb ▸ hF)

end Reach

end Plan

namespace Proto

/-- The tree of a function that falls off its end outside loops only runs like its blocks. -/
theorem structure_sameRuns_falling {o : Options} (ho : o.skipForLoops = true) {p : Proto}
    (hp : p.violation? = none) {t : Locals} (hret : (p.shortened o).ReturningInLoops t) {r : Routine}
    (hr : p.structure? o t = .ok r) {σ : Type} (m : Meaning σ) (s : σ) :
    SameRuns (p.machine m m.decide) (Node.machine m m.decide) (fun c => some c.2) TreeConfig.final
      (some 0, s) ⟨r.body, [], s⟩ := by
  have hfolds := shortened_folds o (m := m) (wellShaped_of_violation hp)
  have hq := hfolds.wellShaped
  obtain ⟨hred, hbuild⟩ := structure?_eq_ok ho hr
  have hpl : (Plan.plain (p.shortened o) t).Regular := Plan.plain_regular hq hred
  refine ((hfolds.sameRuns s).map_view some).trans (hpl.sameRuns hbuild (fun T hT => ?_) m s)
  intro b F fr hb hrb hj
  obtain ⟨l, outer, rfl, hl, -, -⟩ := (hT.placed hb).nested.suffix (.head _)
  have hreach := hT.mem_reach hpl.toFits hrb hb (.head _)
  have hloop := List.all_eq_true.1 hret l (List.mem_of_find?_eq_some hl)
  have hblock := List.all_eq_true.1 hloop b hreach
  have hjump : ((p.shortened o).jump b).targets = [] := by
    rw [show (p.shortened o).jump b = .leave from hj]
    rfl
  rw [hjump] at hblock
  exact exists_last_return hblock

def dropping : Proto :=
  { id := 0
    blocks := [
      ⟨0, 0, 0, [], .branch (.global "a") 1 3⟩,
      ⟨1, 0, 0, [.call (.global "f") [] 0], .branch (.global "b") 2 0⟩,
      ⟨2, 0, 0, [.ret [] 0], .leave⟩,
      ⟨3, 0, 0, [.call (.global "g") [] 0], .leave⟩] }

theorem structure_sameRuns_dropping : ∃ r, dropping.structure? { skipForLoops := true } ∅ = .ok r ∧
    SameRuns (dropping.machine .counting Meaning.counting.decide)
      (Node.machine .counting Meaning.counting.decide) (fun c => some c.2) TreeConfig.final
      (some 0, 0) ⟨r.body, [], 0⟩ := by
  have hok : (dropping.structure? { skipForLoops := true } ∅).isOk = true := by cbv
  cases h : dropping.structure? { skipForLoops := true } ∅ with
  | error e => simp [h, Except.isOk, Except.toBool] at hok
  | ok r => exact ⟨r, rfl, structure_sameRuns_falling rfl (by cbv) (by cbv) h .counting 0⟩

end Proto

end LuaLift
