import LuaLift.Proofs.Proto.Points
import LuaLift.Proofs.Slots.Sweeps

namespace LuaLift

variable {kind : CellKind} {k : Nat}

namespace Stmt

@[simp] theorem mem_liveBefore {s : Stmt} {after : NatSet} :
    k ∈ s.liveBefore kind after ↔ k ∈ s.reads kind ∨ k ∉ s.writes kind ∧ k ∈ after := by
  rw [liveBefore, NatSet.mem_insertAll, NatSet.mem_eraseAll, or_comm, and_comm]

def livePoints (kind : CellKind) (last : NatSet) (ss : List Stmt) : List NatSet :=
  (liveBeforeEach kind last ss).1 :: (liveBeforeEach kind last ss).2

variable {last : NatSet} {ss : List Stmt}

theorem livePoints_cons (s : Stmt) : livePoints kind last (s :: ss) =
    s.liveBefore kind (liveBeforeEach kind last ss).1 :: livePoints kind last ss := rfl

theorem length_livePoints : (livePoints kind last ss).length = ss.length + 1 := by
  induction ss with
  | nil => rfl
  | cons s ss ih => rw [livePoints_cons, List.length_cons, ih, List.length_cons]

theorem livePoints_end : (livePoints kind last ss)[ss.length]? = some last := by
  induction ss with
  | nil => rfl
  | cons s ss ih => simpa [livePoints_cons] using ih

theorem livePoints_stmt {i : Nat} {s : Stmt} (hs : ss[i]? = some s) : ∃ next,
    (livePoints kind last ss)[i + 1]? = some next ∧
      (livePoints kind last ss)[i]? = some (s.liveBefore kind next) := by
  induction ss generalizing i with
  | nil => cases hs
  | cons t ss ih =>
    rw [livePoints_cons]
    cases i with
    | zero =>
      cases hs
      exact ⟨(liveBeforeEach kind last ss).1, rfl, rfl⟩
    | succ i => exact ih hs

theorem livePoints_pointwise {last' : NatSet} (h : k ∈ last → k ∈ last')
    (hk : k ∈ (liveBeforeEach kind last ss).1) : k ∈ (liveBeforeEach kind last' ss).1 := by
  induction ss with
  | nil => exact h hk
  | cons s ss ih =>
    simp only [liveBeforeEach, mem_liveBefore] at hk ⊢
    exact hk.imp_right fun hk => ⟨hk.1, ih hk.2⟩

end Stmt

structure Summary where
  uses : NatSet
  defs : NatSet

namespace Summary

def empty : Summary := ⟨∅, ∅⟩

def extend (s : Summary) (reads writes : List Nat) : Summary :=
  ⟨s.uses.insertAll (reads.filter (· ∉ s.defs)), s.defs.insertAll writes⟩

def liveBefore (s : Summary) (after : NatSet) : NatSet := after.eraseAll s.defs.toList ∪ s.uses

theorem mem_liveBefore {s : Summary} {after : NatSet} :
    k ∈ s.liveBefore after ↔ k ∈ s.uses ∨ k ∉ s.defs ∧ k ∈ after := by
  rw [liveBefore, NatSet.mem_union, NatSet.mem_eraseAll, or_comm, and_comm]
  rfl

theorem mem_liveBefore_extend {s : Summary} {reads writes : List Nat} {after : NatSet} :
    k ∈ (s.extend reads writes).liveBefore after ↔
      k ∈ s.uses ∨ k ∉ s.defs ∧ (k ∈ reads ∨ k ∉ writes ∧ k ∈ after) := by
  simp only [mem_liveBefore, extend, NatSet.mem_insertAll, List.mem_filter, decide_eq_true_eq]
  tauto

end Summary

def Summary.extendAll (kind : CellKind) (s : Summary) (ss : List Stmt) : Summary :=
  ss.foldl (fun (s : Summary) t => s.extend (t.reads kind) (t.writes kind)) s

theorem Summary.mem_liveBefore_extendAll {s : Summary} {ss : List Stmt} {reads : List Nat} {out : NatSet} :
    k ∈ ((s.extendAll kind ss).extend reads []).liveBefore out ↔
      k ∈ s.uses ∨ k ∉ s.defs ∧ k ∈ (Stmt.liveBeforeEach kind (out.insertAll reads) ss).1 := by
  induction ss generalizing s with
  | nil =>
    rw [extendAll, List.foldl_nil, mem_liveBefore_extend]
    simp [Stmt.liveBeforeEach, or_comm]
  | cons t ss ih =>
    rw [extendAll, List.foldl_cons]
    refine ih.trans ?_
    simp only [Stmt.liveBeforeEach, Stmt.mem_liveBefore, extend, NatSet.mem_insertAll, List.mem_filter,
      decide_eq_true_eq]
    tauto

def Block.summary (kind : CellKind) (b : Block) : Summary :=
  (Summary.empty.extendAll kind b.body).extend (b.jump.reads kind) []

theorem Block.liveBefore_summary (b : Block) (out : NatSet) :
    (b.summary kind).liveBefore out = (b.livePoints kind out).1 := by
  apply NatSet.ext
  intro k
  rw [summary, Summary.mem_liveBefore_extendAll]
  simp [Summary.empty, livePoints]

namespace Liveness

variable {p : Proto}

def through (kind : CellKind) (p : Proto) (b : BlockId) (out : NatSet) : NatSet :=
  (Stmt.liveBeforeEach kind (out.insertAll ((p.jump b).reads kind)) (p.body b)).1

theorem pointwise_through {b : BlockId} {s t : NatSet} (h : k ∈ s → k ∈ t) (hk : k ∈ through kind p b s) :
    k ∈ through kind p b t := by
  apply Stmt.livePoints_pointwise _ hk
  simp only [NatSet.mem_insertAll]
  exact Or.imp_left h

def equations (kind : CellKind) (hp : p.WellShaped) : FlowEquations where
  order := (Flow.of p).walk.postorder
  sources := (Flow.of p).successors
  start := fun _ => ∅
  through := through kind p
  closed := by
    intro b hb c hc
    rw [hp.successors] at hc
    have hb : (Flow.of p).isReachable b = true := by simpa [Flow.isReachable] using hb
    simpa [Flow.isReachable] using hp.isReachable_target hb hc
  pointwise := pointwise_through

theorem mem_order (hp : p.WellShaped) {b : BlockId} :
    b ∈ (equations kind hp).order ↔ (Flow.of p).isReachable b = true := by
  simp [equations, Flow.isReachable]

def Sized (n : Nat) (l : Liveness) : Prop := l.liveIn.length = n ∧ l.liveOut.length = n

theorem update_eq {f : Flow} (l : Liveness) {b : BlockId} {block : Block} (hb : p.blocks[b]? = some block) :
    update kind p f l b =
      ⟨l.liveIn.set b (through kind p b ((f.successors b).foldl (fun s c => s ∪ l.before c) ∅)),
        l.liveOut.set b ((f.successors b).foldl (fun s c => s ∪ l.before c) ∅)⟩ := by
  simp [update, through, Block.livePoints, Proto.body, Proto.jump, hb]

theorem equations_solvedBy (hp : p.WellShaped) : (equations kind hp).SolvedBy (Sized p.blocks.length)
    (fun l b => (l.after b, l.before b)) Prod.snd (fun b s => (s, through kind p b s))
    (update kind p (.of p)) where
  sized_update := by
    intro l h b
    unfold update
    simp only
    split
    · exact h
    · simpa [Sized] using h
  row_self := by
    intro l h b hb
    have hlt := hp.lt_of_isReachable ((mem_order hp).1 hb)
    rw [update_eq l (List.getElem?_eq_getElem hlt)]
    exact Prod.ext (getD_set_self (Nat.lt_of_lt_of_eq hlt h.2.symm) _)
      (getD_set_self (Nat.lt_of_lt_of_eq hlt h.1.symm) _)
  row_other := by
    intro l b c hc
    unfold update
    simp only
    split
    · rfl
    · exact Prod.ext (getD_set_other hc _) (getD_set_other hc _)
  passed_make := fun _ _ => rfl
  ext := by
    rintro ⟨liveIn, liveOut⟩ ⟨liveIn', liveOut'⟩ h h' hrows
    congr
    · exact rows_ext (h.1.trans h'.1.symm) fun b => congrArg Prod.snd (hrows b)
    · exact rows_ext (h.2.trans h'.2.symm) fun b => congrArg Prod.fst (hrows b)

theorem settle_eq {f : Flow} (n : Nat) (l : Liveness) :
    settle kind p f n l = settleBy (sweep kind p f) n l := by
  induction n generalizing l with
  | zero => rfl
  | succ n ih =>
    unfold settle settleBy
    simp only [ih]

theorem exists_solve (hp : p.WellShaped) (kind : CellKind) : ∃ l : Liveness,
    (equations kind hp).Solves l.after l.before ∧
      (∀ rounds, p.blocks.length + 2 ≤ rounds → solve kind p rounds = .ok l) ∧
      ∀ rounds m, solve kind p rounds = .ok m → m = l := by
  obtain ⟨l, hl, hsettles, hunique⟩ := (@equations_solvedBy kind p hp).exists_settled
    (x := .empty p.blocks.length) (by simp [Sized, empty]) fun b => getD_replicate _ b
  refine ⟨l, FlowEquations.solves_of_rows hl, fun rounds hrounds => ?_, fun rounds m hm => ?_⟩
  · have hlength : (Flow.of p).walk.postorder.length ≤ p.blocks.length := by
      have := (Flow.of p).length_order_le.trans_eq Proto.size_flow
      rwa [Flow.order, List.length_reverse] at this
    have hsettled : settleBy (sweep kind p (.of p)) rounds (.empty p.blocks.length) = some l :=
      hsettles rounds (Nat.le_trans (Nat.add_le_add_right hlength 2) hrounds)
    rw [solve, settle_eq, hsettled]
  · rw [solve, settle_eq] at hm
    split at hm
    · next hsettled =>
      cases hm
      exact hunique rounds _ hsettled
    · cases hm

section Paths

variable {b : BlockId} {out : NatSet}

def pointsOf (kind : CellKind) (p : Proto) (b : BlockId) (out : NatSet) : List NatSet :=
  Stmt.livePoints kind (out.insertAll ((p.jump b).reads kind)) (p.body b)

theorem pointsOf_zero : (pointsOf kind p b out)[0]? = some (through kind p b out) := rfl

theorem pointsOf_end :
    (pointsOf kind p b out)[(p.body b).length]? = some (out.insertAll ((p.jump b).reads kind)) :=
  Stmt.livePoints_end

theorem pointsOf_stmt (kind : CellKind) (out : NatSet) {i : Nat} {s : Stmt} (hs : (p.body b)[i]? = some s) : ∃ next,
    (pointsOf kind p b out)[i + 1]? = some next ∧ (pointsOf kind p b out)[i]? = some (s.liveBefore kind next) :=
  Stmt.livePoints_stmt hs

theorem length_pointsOf (kind : CellKind) (out : NatSet) : (pointsOf kind p b out).length = (p.body b).length + 1 :=
  Stmt.length_livePoints

theorem liveAt_of_pointsOf (hout : k ∈ out → ∃ c ∈ (p.jump b).targets, p.LiveAt kind k (c, 0)) (n : Nat) {i : Nat}
    (hi : i + n = (p.body b).length) {live : NatSet} (hlive : (pointsOf kind p b out)[i]? = some live)
    (hk : k ∈ live) : p.LiveAt kind k (b, i) := by
  induction n generalizing i live with
  | zero =>
    obtain rfl : i = (p.body b).length := hi
    rw [pointsOf_end] at hlive
    cases hlive
    rcases NatSet.mem_insertAll.1 hk with hk | hk
    · obtain ⟨c, hc, hlive⟩ := hout hk
      apply Proto.liveAt_of_next (.jump rfl hc) _ hlive
      rintro ⟨hs, -⟩
      simp at hs
    · exact ⟨_, .refl, .jump rfl hk⟩
  | succ n ih =>
    have hlt : i < (p.body b).length := by omega
    have hs := List.getElem?_eq_getElem hlt
    obtain ⟨next, hnext, hbefore⟩ := pointsOf_stmt kind out hs
    obtain rfl : _ = live := Option.some.inj (hbefore.symm.trans hlive)
    rcases Stmt.mem_liveBefore.1 hk with hk | ⟨hw, hk⟩
    · exact ⟨_, .refl, .stmt hs hk⟩
    · apply Proto.liveAt_of_next (.stmt hlt) _ (ih (by omega) hnext hk)
      rintro ⟨ht, hkw⟩
      rw [hs] at ht
      cases ht
      exact hw hkw

theorem liveAt_of_after (hp : p.WellShaped) {j : Nat} (h : k ∈ (equations kind hp).after j b) :
    p.LiveAt kind k (b, 0) := by
  induction j generalizing b with
  | zero => exact absurd h NatSet.not_mem_empty
  | succ j ih =>
    apply liveAt_of_pointsOf _ _ (Nat.zero_add _) pointsOf_zero h
    intro hk
    rcases (equations kind hp).mem_gather.1 hk with hk | ⟨c, hc, hk⟩
    · exact absurd hk NatSet.not_mem_empty
    · exact ⟨c, by rwa [← hp.successors], ih hk⟩

theorem mem_pointsOf_of_liveAt (hp : p.WellShaped) {i : Nat} (hb : (Flow.of p).isReachable b = true)
    (h : p.LiveAt kind k (b, i)) : ∃ live,
      (pointsOf kind p b ((equations kind hp).gather (equations kind hp).solution b))[i]? = some live ∧
        k ∈ live := by
  obtain ⟨r, hpath, hread⟩ := h
  generalize hq : (b, i) = q at hpath
  -- From the read back along the path.
  induction hpath using Relation.ReflTransGen.head_induction_on generalizing b i with
  | refl =>
    subst hq
    cases hread with
    | stmt hs hk =>
      obtain ⟨next, -, hbefore⟩ := pointsOf_stmt kind _ hs
      exact ⟨_, hbefore, Stmt.mem_liveBefore.2 (.inl hk)⟩
    | jump hi hk =>
      subst hi
      exact ⟨_, pointsOf_end, NatSet.mem_insertAll.2 (.inr hk)⟩
  | head hstep hrest ih =>
    subst hq
    obtain ⟨hnext, hw⟩ := hstep
    cases hnext with
    | stmt hi =>
      obtain ⟨live, hlive, hk⟩ := ih hb rfl
      have hs := List.getElem?_eq_getElem hi
      obtain ⟨next, hnext, hbefore⟩ := pointsOf_stmt kind _ hs
      obtain rfl : next = live := Option.some.inj (hnext.symm.trans hlive)
      exact ⟨_, hbefore, Stmt.mem_liveBefore.2 (.inr ⟨fun hkw => hw (.stmt hs hkw), hk⟩)⟩
    | @jump _ c _ hi hc =>
      subst hi
      have hrc := hp.isReachable_target hb hc
      obtain ⟨live, hlive, hk⟩ := ih hrc rfl
      rw [pointsOf_zero] at hlive
      cases hlive
      refine ⟨_, pointsOf_end, NatSet.mem_insertAll.2 (.inl ?_)⟩
      apply (equations kind hp).mem_gather.2 (.inr ⟨c, ?_, ?_⟩)
      · rw [← hp.successors] at hc
        exact hc
      · rw [(equations kind hp).solution_eq ((mem_order hp).2 hrc)]
        exact hk

theorem mem_solution_iff (hp : p.WellShaped) (hb : (Flow.of p).isReachable b = true) :
    k ∈ (equations kind hp).solution b ↔ p.LiveAt kind k (b, 0) := by
  refine ⟨liveAt_of_after hp, fun h => ?_⟩
  obtain ⟨live, hlive, hk⟩ := mem_pointsOf_of_liveAt hp hb h
  rw [pointsOf_zero] at hlive
  cases hlive
  rw [(equations kind hp).solution_eq ((mem_order hp).2 hb)]
  exact hk

end Paths

section Exact

variable {l : Liveness} {b : BlockId}

theorem points_eq {block : Block} (hb : p.blocks[b]? = some block) :
    l.points kind p b = pointsOf kind p b (l.after b) := by
  simp [points, pointsOf, Block.livePoints, Stmt.livePoints, Proto.body, Proto.jump, hb]

variable (hp : p.WellShaped) (hl : (equations kind hp).Solves l.after l.before)
  (hb : (Flow.of p).isReachable b = true)
include hl hb

theorem before_eq : l.before b = through kind p b (l.after b) := by
  rw [hl.passed b ((mem_order hp).2 hb), hl.gathered b ((mem_order hp).2 hb)]
  exact (equations kind hp).solution_eq ((mem_order hp).2 hb)

theorem mem_before_iff : k ∈ l.before b ↔ p.LiveAt kind k (b, 0) := by
  rw [hl.passed b ((mem_order hp).2 hb)]
  exact mem_solution_iff hp hb

theorem mem_after_iff : k ∈ l.after b ↔ ∃ c ∈ (p.jump b).targets, k ∈ l.before c := by
  rw [hl.gathered b ((mem_order hp).2 hb), (equations kind hp).mem_gather]
  have hsources : (equations kind hp).sources b = (p.jump b).targets := hp.successors b
  rw [hsources]
  constructor
  · rintro (hk | ⟨c, hc, hk⟩)
    · exact absurd hk NatSet.not_mem_empty
    · rw [← hl.passed c ((mem_order hp).2 (hp.isReachable_target hb hc))] at hk
      exact ⟨c, hc, hk⟩
  · rintro ⟨c, hc, hk⟩
    rw [hl.passed c ((mem_order hp).2 (hp.isReachable_target hb hc))] at hk
    exact .inr ⟨c, hc, hk⟩

theorem mem_points_iff {i : Nat} {live : NatSet} (hlive : (l.points kind p b)[i]? = some live) :
    k ∈ live ↔ p.LiveAt kind k (b, i) := by
  rw [points_eq (List.getElem?_eq_getElem (hp.lt_of_isReachable hb))] at hlive
  have hi : i < (p.body b).length + 1 := by
    rw [← length_pointsOf kind (l.after b)]
    exact (List.getElem?_eq_some_iff.1 hlive).1
  constructor
  · apply liveAt_of_pointsOf _ _ (Nat.add_sub_of_le (Nat.le_of_lt_succ hi)) hlive
    intro hk
    obtain ⟨c, hc, hk⟩ := (mem_after_iff hp hl hb).1 hk
    exact ⟨c, hc, (mem_before_iff hp hl (hp.isReachable_target hb hc)).1 hk⟩
  · intro h
    obtain ⟨live', hlive', hk⟩ := mem_pointsOf_of_liveAt hp hb h
    rw [← hl.gathered b ((mem_order hp).2 hb)] at hlive'
    obtain rfl : live' = live := Option.some.inj (hlive'.symm.trans hlive)
    exact hk

end Exact

/-- At every point of a block in reach, the live set has the cells that some path from the point reads before
it writes them. The set at the entry is that of the first point, as the summary of the block tells it from
the set behind the block, which is the union of those at the entries of the successors. -/
theorem solve_exact (hp : p.violation? = none) {rounds : Nat} {l : Liveness} (hl : solve kind p rounds = .ok l)
    {b : BlockId} {block : Block} (hblock : p.blocks[b]? = some block) (hb : (Flow.of p).isReachable b = true) :
    (l.points kind p b).length = block.body.length + 1 ∧
      (∀ (i : Nat) (live : NatSet), (l.points kind p b)[i]? = some live → ∀ k, k ∈ live ↔ p.LiveAt kind k (b, i)) ∧
      (l.points kind p b)[0]? = some (l.before b) ∧ l.before b = (block.summary kind).liveBefore (l.after b) ∧
      ∀ k, k ∈ l.after b ↔ ∃ c ∈ block.jump.targets, k ∈ l.before c := by
  have hshape := Proto.wellShaped_of_violation hp
  have hbody : p.body b = block.body := by simp [Proto.body, hblock]
  have hjump : p.jump b = block.jump := by simp [Proto.jump, hblock]
  obtain ⟨m, hm, -, hunique⟩ := exists_solve hshape kind
  rw [hunique rounds l hl]
  refine ⟨?_, fun i live hlive k => mem_points_iff hshape hm hb hlive, ?_, ?_, fun k => ?_⟩
  · rw [points_eq hblock, length_pointsOf, hbody]
  · rw [points_eq hblock, before_eq hshape hm hb]
    rfl
  · rw [Block.liveBefore_summary, before_eq hshape hm hb, through, Block.livePoints, hbody, hjump]
  · rw [← hjump]
    exact mem_after_iff hshape hm hb

def twoEntries : Proto :=
  { id := 0, parameters := 1
    blocks := [
      ⟨0, 0, 0, [], .branch (.slot 0) 1 2⟩,
      ⟨1, 1, 1, [.assign ⟨[.slot 1], [.slot 0], false, 0⟩], .always 2⟩,
      ⟨2, 2, 2, [], .branch (.slot 1) 1 3⟩,
      ⟨3, 3, 3, [.ret [.slot 1] 0], .leave⟩] }

theorem solve_exact_twoEntries : ∃ l, solve .slot twoEntries 6 = .ok l ∧
    (∀ (i : Nat) (live : NatSet), (l.points .slot twoEntries 1)[i]? = some live →
      ∀ k, k ∈ live ↔ twoEntries.LiveAt .slot k (1, i)) ∧
    ∀ k, k ∈ l.after 1 ↔ k ∈ l.before 2 := by
  have hok : (solve .slot twoEntries 6).isOk = true := by cbv
  cases hl : solve .slot twoEntries 6 with
  | error e => simp [hl, Except.isOk, Except.toBool] at hok
  | ok l =>
    obtain ⟨-, hpoints, -, -, hafter⟩ := solve_exact (b := 1) (by cbv) hl rfl (by cbv)
    exact ⟨l, rfl, hpoints, fun k => (hafter k).trans (by simp [Jump.targets])⟩

end Liveness

end LuaLift
