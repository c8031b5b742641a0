import LuaLift.Proofs.Loops.Generic
import LuaLift.Proofs.Loops.Numeric

namespace LuaLift

open Machine

namespace Classified

variable {f : Flow} {c : Classified} {l : NaturalLoop}

theorem varsOf?_singleton {x : Cell} {vs : List LocalId} (h : varsOf? [x] = some vs) :
    ∃ v, vs = [v] ∧ x = ⟨.var, v⟩ := by
  obtain ⟨kind, i⟩ := x
  cases kind with
  | slot => simp [varsOf?] at h
  | var =>
    simp [varsOf?] at h
    exact ⟨i, h.symm, rfl⟩

theorem step_cases (f : Flow) (c : Classified) (l : NaturalLoop) :
    (∃ n v, NumericLoop.recognize c.locals.slotOf true c.proto f l = .full n ∧ n.variableCell = ⟨.var, v⟩ ∧
      (c.step true f l).proto = n.strip c.proto ∧ (c.step true f l).loops =
        c.loops ++ [⟨l.header, l.body, .numeric v n.start n.stop n.step n.bodyEntry n.follow⟩]) ∨
    (∃ g vs, GenericLoop.recognize c.locals.slotOf c.proto f l = .full g ∧ varsOf? g.variableCells = some vs ∧
      (c.step true f l).proto = g.strip c.proto ∧ (c.step true f l).loops =
        c.loops ++ [⟨l.header, l.body, .generic vs g.iterators g.bodyEntry g.follow⟩]) ∨
    (c.step true f l).proto = c.proto ∧ (c.step true f l).loops =
      c.loops ++ [⟨l.header, l.body, l.plainShape c.proto f⟩] := by
  generalize hstep : c.step true f l = c'
  rw [step, if_pos rfl] at hstep
  simp only at hstep
  split at hstep
  · next n hn =>
    cases hv : c.numeric? l n with
    | none =>
      rw [hv] at hstep
      subst hstep
      exact .inr (.inr ⟨rfl, rfl⟩)
    | some d =>
      rw [hv] at hstep
      subst hstep
      obtain ⟨vs, hvs, hd⟩ := Option.bind_eq_some_iff.1 hv
      obtain ⟨v, rfl, hcell⟩ := varsOf?_singleton hvs
      cases hd
      exact .inl ⟨n, v, hn, hcell, rfl, rfl⟩
  · next g hg _ =>
    cases hv : c.generic? l g with
    | none =>
      rw [hv] at hstep
      subst hstep
      exact .inr (.inr ⟨rfl, rfl⟩)
    | some d =>
      rw [hv] at hstep
      subst hstep
      obtain ⟨vs, hvs, rfl⟩ := Option.map_eq_some_iff.1 hv
      exact .inr (.inl ⟨g, vs, hg, hvs, rfl, rfl⟩)
  all_goals
    subst hstep
    exact .inr (.inr ⟨rfl, rfl⟩)

theorem jump_step (f : Flow) (c : Classified) (l : NaturalLoop) (b : BlockId) :
    (c.step true f l).proto.jump b = c.proto.jump b := by
  rcases step_cases f c l with ⟨n, v, -, -, hp, -⟩ | ⟨g, vs, -, -, hp, -⟩ | ⟨hp, -⟩
  · rw [hp, NumericLoop.jump_strip]
  · rw [hp, GenericLoop.jump_strip]
  · rw [hp]

theorem plainShape_ne_numeric {p : Proto} {v : LocalId} {start stop step : Expr} {entry follow : BlockId} :
    l.plainShape p f ≠ .numeric v start stop step entry follow := by
  unfold NaturalLoop.plainShape
  cases hpre : l.pretest? p with
  | some shape =>
    obtain ⟨-, e, c, -, -, rfl⟩ := NaturalLoop.pretest?_eq_some hpre
    simp
  | none =>
    cases hpost : l.posttest? p with
    | some shape =>
      obtain ⟨latch, e, -, -, rfl⟩ := NaturalLoop.posttest?_eq_some hpost
      simp
    | none => simp

theorem jump_foldl (f : Flow) (ls : List NaturalLoop) (c : Classified) (b : BlockId) :
    (ls.foldl (step true f) c).proto.jump b = c.proto.jump b := by
  induction ls generalizing c with
  | nil => rfl
  | cons l ls ih => exact (ih (c.step true f l)).trans (jump_step f c l b)

theorem exists_recognize_of_mem_foldl (ls : List NaturalLoop) (c : Classified) {s : ShapedLoop}
    (hs : s ∈ (ls.foldl (step true f) c).loops) {v : LocalId} {start stop step' : Expr} {entry follow : BlockId}
    (hshape : s.shape = .numeric v start stop step' entry follow) :
    s ∈ c.loops ∨ ∃ (before after : List NaturalLoop) (l : NaturalLoop) (n : NumericLoop),
      ls = before ++ l :: after ∧
      NumericLoop.recognize (before.foldl (step true f) c).locals.slotOf true (before.foldl (step true f) c).proto f l =
        .full n ∧
      n.variableCell = ⟨.var, v⟩ ∧ s = ⟨l.header, l.body, .numeric v n.start n.stop n.step n.bodyEntry n.follow⟩ := by
  induction ls generalizing c with
  | nil => exact .inl hs
  | cons l ls ih =>
    rcases ih (c.step true f l) hs with hmem | ⟨before, after, l', n, rfl, hrest⟩
    · have hnew : s ∈ c.loops ∨ ∃ n, NumericLoop.recognize c.locals.slotOf true c.proto f l = .full n ∧
          n.variableCell = ⟨.var, v⟩ ∧
          s = ⟨l.header, l.body, .numeric v n.start n.stop n.step n.bodyEntry n.follow⟩ := by
        rcases step_cases f c l with ⟨n, w, hn, hcell, -, hloops⟩ | ⟨g, vs, -, -, -, hloops⟩ | ⟨-, hloops⟩
        · rw [hloops, List.mem_append, List.mem_singleton] at hmem
          refine hmem.imp_right fun heq => ⟨n, hn, ?_⟩
          subst heq
          cases hshape
          exact ⟨hcell, rfl⟩
        · rw [hloops, List.mem_append, List.mem_singleton] at hmem
          refine hmem.imp_right fun heq => ?_
          subst heq
          cases hshape
        · rw [hloops, List.mem_append, List.mem_singleton] at hmem
          refine hmem.imp_right fun heq => ?_
          subst heq
          exact absurd hshape plainShape_ne_numeric
      exact hnew.imp_right fun ⟨n, hrest⟩ => ⟨[], ls, l, n, rfl, hrest⟩
    · exact .inr ⟨l :: before, after, l', n, rfl, hrest⟩

end Classified

namespace Proto

variable {p : Proto} {t : Locals}

theorem numeric_sameRuns_of_mem_classify (hp : p.WellShaped) {s : ShapedLoop}
    (hs : s ∈ (p.classify (.of p) t true).loops) {v : LocalId} {start stop step : Expr} {entry follow : BlockId}
    (hshape : s.shape = .numeric v start stop step entry follow) :
    ∃ (before after : List NaturalLoop) (l : NaturalLoop) (n : NumericLoop) (c : NumericLoop.Counters)
        (d : Classified), (Flow.of p).loops (Flow.of p).dominance = before ++ l :: after ∧
      d = before.foldl (Classified.step true (.of p)) ⟨p, t, [], []⟩ ∧
      NumericLoop.counters? d.locals.slotOf d.proto l = some c ∧
      NumericLoop.recognize d.locals.slotOf true d.proto (.of p) l = .full n ∧ n.variableCell = ⟨.var, v⟩ ∧
      s = ⟨l.header, l.body, .numeric v n.start n.stop n.step n.bodyEntry n.follow⟩ ∧
      ∀ {V W : Type} {I : Interpretation V W} {turn : Turn V W}, n.Undisturbed c l d.proto → I.Lawful c.hidden →
        l.Turns I d.proto c.hidden turn → ∀ e, I.Counts c (n.enter I (n.strip d.proto) e).2 →
        SameRuns (l.machine I c.hidden turn d.proto) (n.machine I c.hidden turn l (n.strip d.proto))
          (fun g => (g.1, g.2.apart c.hidden)) (fun g => (g.1, g.2.1.apart c.hidden))
          (some l.header, I.meaning.runAll (d.proto.body n.preheader) e)
          (some l.header, n.enter I (n.strip d.proto) e) := by
  rw [classify, List.mem_mergeSort] at hs
  rcases Classified.exists_recognize_of_mem_foldl _ _ hs hshape with hnil | ⟨before, after, l, n, hloops, hn, hcell, heq⟩
  · cases hnil
  · obtain ⟨c, hc, hcounted⟩ := NumericLoop.counted_of_recognize hn
    refine ⟨before, after, l, n, c, _, hloops, rfl, hc, hn, hcell, heq, fun hundisturbed hI hturn e hk => ?_⟩
    have hsucc (b : BlockId) : (Flow.of p).successors b =
        ((before.foldl (Classified.step true (.of p)) ⟨p, t, [], []⟩).proto.jump b).targets := by
      rw [hp.successors, Classified.jump_foldl]
    exact hcounted.sameRuns hp.rooted (Flow.isLoop_of_mem (by simp [hloops])) hsucc hundisturbed hI
      hturn e hk

end Proto

end LuaLift
