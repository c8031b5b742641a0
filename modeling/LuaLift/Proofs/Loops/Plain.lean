import LuaLift.Loops.Shape
import LuaLift.Proofs.Proto.TestChain
import LuaLift.Proofs.Region.Simulation

namespace LuaLift

namespace NaturalLoop

variable {l : NaturalLoop} {p : Proto} {f : Flow}

theorem exitTest?_eq_some {j : Jump} {e : ExitTest} (h : l.exitTest? j = some e) :
    e.inside ∈ l.body ∧ e.outside ∉ l.body ∧ ∃ c, j.condition? = some c ∧
      j = if e.staysOnTrue then .branch c e.inside e.outside else .branch c e.outside e.inside := by
  unfold exitTest? at h
  split at h
  · next c a b =>
    split at h
    · next ha hb =>
      cases h
      simp only [contains, List.contains_eq_mem, decide_eq_true_eq, decide_eq_false_iff_not] at ha hb
      exact ⟨ha, hb, c, rfl, rfl⟩
    · next ha hb =>
      cases h
      simp only [contains, List.contains_eq_mem, decide_eq_true_eq, decide_eq_false_iff_not] at ha hb
      exact ⟨hb, ha, c, rfl, rfl⟩
    · cases h
  · cases h

theorem exists_exit_of_exitTarget {w : BlockId} (h : l.exitTarget? p f = some w) :
    ∃ e ∈ l.exits f, e.2 = w := by
  refine List.foldlRecOn (motive := fun best => ∀ b, best = some b → ∃ e ∈ l.exits f, e.2 = b) (l.exits f) _
    (by simp) (fun best hbest e he b hb => ?_) w h
  cases best with
  | none =>
    cases hb
    exact ⟨e, he, rfl⟩
  | some a =>
    simp only at hb
    split at hb
    · cases hb
      exact ⟨e, he, rfl⟩
    · exact hbest b hb

theorem mem_exits {e : BlockId × BlockId} :
    e ∈ l.exits f ↔ e.1 ∈ l.body ∧ e.2 ∈ f.successors e.1 ∧ e.2 ∉ l.body := by
  obtain ⟨a, b⟩ := e
  simp only [exits, contains, List.mem_flatMap, List.mem_map, List.mem_filter, List.contains_eq_mem,
    Bool.not_eq_true', decide_eq_false_iff_not, Prod.mk.injEq]
  constructor
  · rintro ⟨_, ha, _, hb, rfl, rfl⟩
    exact ⟨ha, hb⟩
  · rintro ⟨ha, hb⟩
    exact ⟨a, ha, b, hb, rfl, rfl⟩

theorem exitTarget?_notMem {w : BlockId} (h : l.exitTarget? p f = some w) : w ∉ l.body := by
  obtain ⟨e, he, rfl⟩ := exists_exit_of_exitTarget h
  exact (mem_exits.1 he).2.2

end NaturalLoop

theorem Classified.foldl_step (f : Flow) (ls : List NaturalLoop) (c : Classified) :
    ls.foldl (Classified.step false f) c = { c with
      loops := c.loops ++ ls.map fun n => ⟨n.header, n.body, n.plainShape c.proto f⟩ } := by
  induction ls generalizing c with
  | nil => simp
  | cons n ls ih =>
    have hstep : Classified.step false f c n = c.add n (n.plainShape c.proto f) := rfl
    rw [List.foldl_cons, hstep, ih]
    simp [Classified.add]

theorem Proto.proto_classify {p : Proto} {f : Flow} {t : Locals} : (p.classify f t false).proto = p := by
  simp [classify, Classified.foldl_step]

theorem Proto.exists_loop_of_mem_classify {p : Proto} {f : Flow} {t : Locals} {l : ShapedLoop}
    (h : l ∈ (p.classify f t false).loops) :
    ∃ n ∈ f.loops f.dominance, l = ⟨n.header, n.body, n.plainShape p f⟩ := by
  simp only [classify, Classified.foldl_step, List.nil_append, List.mem_mergeSort, List.mem_map] at h
  obtain ⟨n, hn, rfl⟩ := h
  exact ⟨n, hn, rfl⟩

theorem Proto.mem_classify {p : Proto} {f : Flow} {t : Locals} {n : NaturalLoop}
    (h : n ∈ f.loops f.dominance) :
    ⟨n.header, n.body, n.plainShape p f⟩ ∈ (p.classify f t false).loops := by
  simp only [classify, Classified.foldl_step, List.nil_append, List.mem_mergeSort, List.mem_map]
  exact ⟨n, h, rfl⟩

namespace NaturalLoop

variable {l : NaturalLoop} {p : Proto} {f : Flow}

theorem pretest?_eq_some {shape : LoopShape} (h : l.pretest? p = some shape) :
    p.body l.header = [] ∧ ∃ e c, l.exitTest? (p.jump l.header) = some e ∧
      (p.jump l.header).condition? = some c ∧
      shape = .pretest (if e.staysOnTrue then c else c.negate) e.inside e.outside := by
  unfold pretest? at h
  by_cases hb : (p.body l.header).isEmpty = true
  · simp only [hb, guard, if_true, Option.bind_eq_bind, Option.bind_eq_some_iff] at h
    obtain ⟨-, -, e, he, c, hc, hs⟩ := h
    exact ⟨List.isEmpty_iff.1 hb, e, c, he, hc, (Option.some.inj hs).symm⟩
  · simp [hb, guard, failure] at h

theorem posttest?_eq_some {shape : LoopShape} (h : l.posttest? p = some shape) :
    ∃ latch e, l.latches = [latch] ∧ l.exitTest? (p.jump latch) = some e ∧
      shape = .posttest latch e.outside := by
  unfold posttest? singleLatch? at h
  simp only [Option.bind_eq_bind, Option.bind_eq_some_iff] at h
  obtain ⟨latch, hl, e, he, hs⟩ := h
  split at hl
  · next hlatches =>
    cases hl
    exact ⟨_, e, hlatches, he, (Option.some.inj hs).symm⟩
  · cases hl

theorem exists_exit (hl : f.IsLoop l) (hf : f.Rooted) (hsucc : ∀ b, f.successors b = (p.jump b).targets)
    {w : BlockId} (h : (l.plainShape p f).follow? = some w) : ∃ a ∈ l.body, w ∈ f.successors a := by
  have outside {a : BlockId} {e : ExitTest} (ha : a ∈ l.body) (he : l.exitTest? (p.jump a) = some e)
      (hw : e.outside = w) : ∃ a ∈ l.body, w ∈ f.successors a := by
    obtain ⟨-, -, c, -, hj⟩ := exitTest?_eq_some he
    refine ⟨a, ha, ?_⟩
    rw [hsucc, hj, ← hw]
    cases e.staysOnTrue <;> simp [Jump.targets]
  unfold plainShape at h
  cases hpre : l.pretest? p with
  | some shape =>
    obtain ⟨-, e, c, he, -, rfl⟩ := pretest?_eq_some hpre
    rw [hpre] at h
    exact outside (hl.header_mem hf) he (Option.some.inj h)
  | none =>
    rw [hpre] at h
    cases hpost : l.posttest? p with
    | some shape =>
      obtain ⟨latch, e, hlatch, he, rfl⟩ := posttest?_eq_some hpost
      rw [hpost] at h
      exact outside (hl.latch_mem hf (hl.mem_latches.1 (by simp [hlatch]))) he (Option.some.inj h)
    | none =>
      rw [hpost] at h
      obtain ⟨e, he, rfl⟩ := exists_exit_of_exitTarget h
      exact ⟨e.1, (mem_exits.1 he).1, (mem_exits.1 he).2.1⟩

end NaturalLoop

namespace Plan

variable {pl : Plan}

theorem fits_pretest {n : NaturalLoop} (hn : pl.flow.IsLoop n) {shape : LoopShape}
    (hs : n.pretest? pl.proto = some shape) :
    pl.LoopFits ⟨n.header, n.body, shape⟩ ∧ pl.PlainLoop ⟨n.header, n.body, shape⟩ := by
  obtain ⟨hempty, e, c, he, hc, rfl⟩ := NaturalLoop.pretest?_eq_some hs
  obtain ⟨hin, hout, c', hc', hj⟩ := NaturalLoop.exitTest?_eq_some he
  obtain rfl : c' = c := Option.some.inj (hc'.symm.trans hc)
  refine ⟨⟨⟨n.latches, hn⟩, fun hw => ?_, fun hh w hw => ?_, fun hp => by cases hp⟩, hempty, ?_⟩
  · cases hw
    exact hout
  · cases hh
    rw [hj] at hw
    cases hst : e.staysOnTrue <;> simp [hst, Jump.targets] at hw <;> rcases hw with rfl | rfl <;>
      simp [LoopShape.follow?]
  · cases hst : e.staysOnTrue
    · refine .inr ⟨c', by simp, ?_⟩
      simpa [hst] using hj
    · exact .inl (by simpa [hst] using hj)

theorem fits_posttest (hf : pl.flow.Rooted)
    (hsucc : ∀ b, pl.flow.successors b = (pl.proto.jump b).targets) {n : NaturalLoop}
    (hn : pl.flow.IsLoop n) {shape : LoopShape} (hs : n.posttest? pl.proto = some shape) :
    pl.LoopFits ⟨n.header, n.body, shape⟩ ∧ pl.PlainLoop ⟨n.header, n.body, shape⟩ := by
  obtain ⟨latch, e, hl, he, rfl⟩ := NaturalLoop.posttest?_eq_some hs
  obtain ⟨hin, hout, c, -, hj⟩ := NaturalLoop.exitTest?_eq_some he
  refine ⟨⟨⟨n.latches, hn⟩, fun hw => ?_, (by intro _ _ hh; cases hh), fun hp => ?_⟩, trivial⟩
  · cases hw
    exact hout
  · cases hp
    have hback : pl.flow.BackEdge latch n.header := hn.mem_latches.1 (by simp [hl])
    have hmem : n.header ∈ (pl.proto.jump latch).targets := by rw [← hsucc]; exact hback.edge
    have hne : n.header ≠ e.outside := fun h => hout (h ▸ hn.header_mem hf)
    have hinside : n.header = e.inside := by
      rw [hj] at hmem
      cases hst : e.staysOnTrue <;> simpa [hst, Jump.targets, hne] using hmem
    refine ⟨fun a ha => ?_, c, ?_⟩
    · have := hn.mem_latches.2 ha
      rw [hl] at this
      simpa using this
    · simp only [hinside]
      cases hst : e.staysOnTrue <;> simp [hst] at hj
      · exact .inr hj
      · exact .inl hj

theorem fits_endless {n : NaturalLoop} (hn : pl.flow.IsLoop n) :
    pl.LoopFits ⟨n.header, n.body, .endless (n.exitTarget? pl.proto pl.flow)⟩ ∧
      pl.PlainLoop ⟨n.header, n.body, .endless (n.exitTarget? pl.proto pl.flow)⟩ := by
  refine ⟨⟨⟨n.latches, hn⟩, fun hw => ?_, (by intro _ _ hh; cases hh), (by intro _ _ hp; cases hp)⟩, trivial⟩
  exact NaturalLoop.exitTarget?_notMem hw

theorem fits_plain (hf : pl.flow.Rooted)
    (hsucc : ∀ b, pl.flow.successors b = (pl.proto.jump b).targets) {n : NaturalLoop}
    (hn : pl.flow.IsLoop n) : pl.LoopFits ⟨n.header, n.body, n.plainShape pl.proto pl.flow⟩ ∧
      pl.PlainLoop ⟨n.header, n.body, n.plainShape pl.proto pl.flow⟩ := by
  unfold NaturalLoop.plainShape
  cases hpre : n.pretest? pl.proto with
  | some shape => exact fits_pretest hn hpre
  | none =>
    cases hpost : n.posttest? pl.proto with
    | some shape => exact fits_posttest hf hsucc hn hpost
    | none => exact fits_endless hn

variable {p : Proto} {t : Locals}

def plain (p : Proto) (t : Locals) : Plan := .of p (.of p) (p.classify (.of p) t false).loops

theorem loopAt?_plain (hp : p.WellShaped) {n : NaturalLoop} (hn : (Flow.of p).IsLoop n) :
    (plain p t).loopAt? n.header = some ⟨n.header, n.body, n.plainShape p (.of p)⟩ := by
  have hmem := Proto.mem_classify (p := p) (t := t) (hn.mem_loops hp.rooted)
  cases h : (plain p t).loopAt? n.header with
  | none =>
    have := List.find?_eq_none.1 h _ hmem
    simp at this
  | some l =>
    have hh : l.header = n.header := by simpa using List.find?_some h
    obtain ⟨n', hn', rfl⟩ := Proto.exists_loop_of_mem_classify (List.mem_of_find?_eq_some h)
    have h1 := (Flow.isLoop_of_mem hn').eq_loopAt
    have h2 := hn.eq_loopAt
    rw [show n'.header = n.header from hh, ← h2] at h1
    rw [h1]

theorem loopAt?_plain_eq_none {b : BlockId} (h : ∀ a, ¬ (Flow.of p).BackEdge a b) :
    (plain p t).loopAt? b = none := by
  cases hl : (plain p t).loopAt? b with
  | none => rfl
  | some l =>
    have hh : l.header = b := by simpa using List.find?_some hl
    obtain ⟨n, hn, rfl⟩ := Proto.exists_loop_of_mem_classify (List.mem_of_find?_eq_some hl)
    obtain ⟨a, ha⟩ := (Flow.isLoop_of_mem hn).exists_latch
    exact absurd (show (Flow.of p).BackEdge a b from hh ▸ ha) (h a)

theorem plain_fits (hp : p.WellShaped) (hr : (Flow.of p).Reducible) : (plain p t).Fits := by
  have hf : (Flow.of p).Rooted := hp.rooted
  refine ⟨hf, hr, hp.successors, rfl, fun hl => ?_⟩
  obtain ⟨n, hn, rfl⟩ := Proto.exists_loop_of_mem_classify (List.mem_of_find?_eq_some hl)
  exact (@fits_plain (plain p t) hf hp.successors _ (Flow.isLoop_of_mem hn)).1

theorem plain_plainLoop (hp : p.WellShaped) {l : ShapedLoop}
    (hl : (plain p t).loopAt? l.header = some l) : (plain p t).PlainLoop l := by
  obtain ⟨n, hn, rfl⟩ := Proto.exists_loop_of_mem_classify (List.mem_of_find?_eq_some hl)
  exact (@fits_plain (plain p t) hp.rooted hp.successors _ (Flow.isLoop_of_mem hn)).2

theorem plain_regular (hp : p.WellShaped) (hr : (Flow.of p).Reducible) : (plain p t).Regular :=
  ⟨plain_fits hp hr, plain_plainLoop hp, hp.returns_body⟩

theorem plain_isReachable_follow (hp : p.WellShaped) {l : ShapedLoop}
    (hl : (plain p t).loopAt? l.header = some l) {w : BlockId} (hw : l.shape.follow? = some w) :
    (Flow.of p).isReachable w = true := by
  have hf : (Flow.of p).Rooted := hp.rooted
  obtain ⟨n, hn, rfl⟩ := Proto.exists_loop_of_mem_classify (List.mem_of_find?_eq_some hl)
  have hloop := Flow.isLoop_of_mem hn
  obtain ⟨a, ha, hwa⟩ := NaturalLoop.exists_exit hloop hf hp.successors hw
  exact hf.isReachable_successor (hloop.reachable hf ha) hwa

theorem sound_of_classify (hp : p.WellShaped) (hret : p.Returning) (hr : (Flow.of p).Reducible)
    (t : Locals) : (Plan.of p (.of p) (p.classify (.of p) t false).loops).Sound := by
  refine ⟨plain_regular hp hr, fun hb hj => ?_⟩
  exact hret.ends hb hj

end Plan

end LuaLift
