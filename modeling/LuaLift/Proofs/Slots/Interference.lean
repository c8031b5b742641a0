import LuaLift.Proofs.Slots.Captures
import LuaLift.Proofs.Slots.Defined
import LuaLift.Proofs.Slots.Liveness

/-!
Variables of one slot do not interfere. Where a definition of the slot reaches a point, no variable of the
slot but that of the definition can be live there; where none does, none is live that a later write of the
same block could save.
-/

namespace LuaLift

open Relation

namespace Definitions

variable {ds : Definitions} {c : Partition} {state : NatSet} {b : BlockId} {i : Nat} {s : Stmt} {x : Slot}
  {v : LocalId}

theorem localOf?_of_roots {d : Nat} (h : (ds.roots c)[v]? = some d) : ds.localOf? c d = some v := by
  obtain ⟨hv, hd⟩ := List.getElem?_eq_some_iff.1 h
  have hroot := (mem_roots.1 (List.mem_of_getElem? h)).2
  have hnodup : (ds.roots c).Nodup := List.nodup_range.filter _
  rw [localOf?, hroot, ← hd]
  exact idxOf?_getElem hnodup hv

theorem exists_root_of_get? {p : Proto} (hc : ds.Coherent c) {l : Local} (h : (ds.locals p c).get? v = some l) :
    ∃ d x earlier, ds.localOf? c d = some v ∧ c.root d = d ∧ ds.slot? d = some x ∧
      l = ds.localOfRoot p d x earlier := by
  have hv : v < (ds.roots c).length := by
    have hlt := (List.getElem?_eq_some_iff.1 h).1
    rw [locals, List.length_map, List.length_zipIdx] at hlt
    exact Nat.lt_of_lt_of_le hlt (List.length_filterMap_le _ _)
  obtain ⟨hlt, hroot⟩ := mem_roots.1 (List.getElem_mem hv)
  have hd := localOf?_of_roots (List.getElem?_eq_getElem hv)
  obtain ⟨x, hx⟩ := exists_slot? hlt
  obtain ⟨earlier, hl⟩ := get?_locals (p := p) hc hx hd
  rw [hroot] at hl
  exact ⟨_, x, earlier, hd, hroot, hx, Option.some.inj (h.symm.trans hl)⟩

theorem slot?_locals {p : Proto} (hc : ds.Coherent c) : (ds.locals p c).slot? v = some x ↔ ds.Holds c x v := by
  constructor
  · intro h
    obtain ⟨l, hl, rfl⟩ := Option.map_eq_some_iff.1 h
    obtain ⟨d, y, n, hv, -, hy, rfl⟩ := exists_root_of_get? hc hl
    rw [slot_localOfRoot]
    exact ⟨d, hy, hv⟩
  · rintro ⟨d, hd, hv⟩
    obtain ⟨n, hn⟩ := get?_locals (p := p) hc hd hv
    rw [Locals.slot?, hn, Option.map_some, slot_localOfRoot]

theorem AllBound.reads_var {es : List Expr} (hes : ds.AllBound c state es) (hc : ds.Coherent c)
    (hread : v ∈ (es.map (Expr.bindSlots (ds.read c state))).flatMap (·.reads .var)) (hxv : ds.Holds c x v) :
    (∃ d ∈ state, ds.slot? d = some x) ∧ ∀ e ∈ state, ds.slot? e = some x → ds.localOf? c e = some v := by
  obtain ⟨e, he, hve⟩ := List.mem_flatMap.1 hread
  have hcell := List.mem_flatMap.2 ⟨e, he, Expr.mem_reads.1 hve⟩
  rw [cells_read] at hcell
  obtain ⟨_, hcell, heq⟩ := List.mem_map.1 hcell
  obtain ⟨y, rfl, hbound⟩ := hes _ hcell
  obtain ⟨d, w, hd, hw, hread⟩ := hbound.readCell
  obtain rfl : w = v := by simpa [Expr.slotsTo, hread] using heq
  obtain ⟨hmem, hdy⟩ := mem_ofSlot.1 hd
  obtain rfl : y = x := hxv.slot_eq hc ⟨d, hdy, hw⟩
  refine ⟨⟨d, hmem, hdy⟩, fun e he hey => ?_⟩
  rw [← hw]
  exact localOf?_of_same (hbound.2 e (mem_ofSlot.2 ⟨he, hey⟩) d hd)

section Rewritten

variable {p q : Proto} {r : Reaching} {block : Block} (hq : ds.Rewritten p q r c b block)
include hq

theorem Rewritten.getElem?_body (hs : (p.body b)[i]? = some s) (hstate : (ds.states p r b)[i]? = some state) :
    (q.body b)[i]? = some (s.bindSlots (ds.read c state) (ds.writtenAt c b i)) := by
  rw [hq.body_before] at hs
  rw [hq.body_after, List.getElem?_map, List.getElem?_zipIdx, hs]
  simp [hstate]

theorem Rewritten.length_body : (q.body b).length = (p.body b).length := by
  rw [hq.body_after, hq.body_before, List.length_map, List.length_zipIdx]

theorem Rewritten.next {t : Point} (h : q.Next (b, i) t) : p.Next (b, i) t := by
  cases h with
  | stmt hi => exact .stmt (hq.length_body ▸ hi)
  | jump hi hc => exact .jump (hi.trans hq.length_body) (hq.targets_jump ▸ hc)

theorem Rewritten.writes (hs : (p.body b)[i]? = some s) (hstate : (ds.states p r b)[i]? = some state) {m e : Nat}
    (hm : (m, x) ∈ s.slotTargets) (he : ds.number? (.target b i m) = some e) (hv : ds.localOf? c e = some v) :
    q.Writes .var v (b, i) := by
  obtain ⟨a, rfl, ha⟩ := mem_slotTargets.1 hm
  apply Proto.Writes.stmt (hq.getElem?_body hs hstate)
  rw [Stmt.bindSlots, Stmt.mem_writes]
  refine List.mem_filterMap.2 ⟨.var v, List.mem_of_getElem? (i := m) ?_, rfl⟩
  rw [List.getElem?_map, List.getElem?_zipIdx, ha]
  simp [Stmt.bindTarget, writtenAt, he, hv]

end Rewritten

section Resolved

variable {p q : Proto} {r : Reaching} (h : (of p (.of p)).Resolved p r c) (hp : p.WellShaped) (hv : p.VarFree)
  (hq : ∀ b ∈ (Flow.of p).order, ∃ block, (of p (.of p)).Rewritten p q r c b block)
include h hv hq

theorem Resolved.reads_var (hb : (Flow.of p).isReachable b = true) (hread : q.Reads .var v (b, i))
    (hstate : ((of p (.of p)).states p r b)[i]? = some state) (hxv : (of p (.of p)).Holds c x v) :
    (∃ d ∈ state, (of p (.of p)).slot? d = some x) ∧
      ∀ e ∈ state, (of p (.of p)).slot? e = some x → (of p (.of p)).localOf? c e = some v := by
  have hbo := Flow.mem_order.2 hb
  obtain ⟨block, hblock⟩ := hq b hbo
  cases hread with
  | stmt hu hk =>
    have hi : i < (p.body b).length := hblock.length_body ▸ (List.getElem?_eq_some_iff.1 hu).1
    obtain ⟨s, hs⟩ : ∃ s, (p.body b)[i]? = some s := ⟨_, List.getElem?_eq_getElem hi⟩
    rw [hblock.getElem?_body hs hstate] at hu
    cases hu
    rw [Stmt.reads, Stmt.operands_bindSlots] at hk
    rw [hblock.body_before] at hs
    exact (h.sees hv hbo hblock.before hs hstate).bound.reads_var h.coherent hk hxv
  | jump hi hk =>
    rw [hblock.length_body, hblock.body_before] at hi
    subst hi
    rw [hblock.jump_after hstate, Jump.reads_eq, Jump.condition?_mapCondition, Option.toList_map] at hk
    exact (h.allBound_jump hv hbo hblock.before hstate).reads_var h.coherent hk hxv

include hp

theorem Resolved.localOf?_of_liveAt {pt : Point} (hlive : q.LiveAt .var v pt)
    (hb : (Flow.of p).isReachable pt.1 = true) (hstate : ((of p (.of p)).states p r pt.1)[pt.2]? = some state)
    {d : Nat} (hd : d ∈ state) (hx : (of p (.of p)).slot? d = some x) (hxv : (of p (.of p)).Holds c x v) :
    (of p (.of p)).localOf? c d = some v := by
  obtain ⟨last, hpath, hread⟩ := hlive
  induction hpath using ReflTransGen.head_induction_on generalizing state d with
  | refl => exact (h.reads_var hv hq hb hread hstate hxv).2 d hd hx
  | @head pt t hstep hpath ih =>
    obtain ⟨hnext, hkept⟩ := hstep
    obtain ⟨block, hblock⟩ := hq pt.1 (Flow.mem_order.2 hb)
    have hnext := hblock.next hnext
    obtain ⟨state', e, hstate', he, hex, hnew⟩ := h.settled.follow hp hnext hb hstate hd hx
    have hev := ih (hp.isReachable_next hb hnext) hstate' he hex
    rcases hnew with rfl | ⟨s, m, hs, hm, hnumber⟩
    · exact hev
    · exact absurd (hblock.writes hs hstate hm hnumber hev) hkept

theorem Resolved.liveAt_succ (hb : (Flow.of p).isReachable b = true) (hs : (p.body b)[i]? = some s)
    (hunreached : ¬(of p (.of p)).Reached p r x (b, i)) (hxv : (of p (.of p)).Holds c x v)
    (hlive : q.LiveAt .var v (b, i)) : x ∉ s.writtenSlots ∧ ¬(of p (.of p)).Reached p r x (b, i + 1) ∧
      q.LiveAt .var v (b, i + 1) := by
  obtain ⟨block, hblock⟩ := hq b (Flow.mem_order.2 hb)
  have hi := (List.getElem?_eq_some_iff.1 hs).1
  obtain ⟨state, hstate, hafter⟩ := states_succ (of p (.of p)) r hs
  rcases hlive.reads_or_next with hread | ⟨hkept, t, hnext, hlive⟩
  · obtain ⟨⟨d, hd, hdx⟩, -⟩ := h.reads_var hv hq hb hread hstate hxv
    exact absurd ⟨state, d, hstate, hd, hdx⟩ hunreached
  · have hnext := hblock.next hnext
    cases hnext with
    | jump hend => omega
    | stmt =>
      have hw : x ∉ s.writtenSlots := by
        intro hw
        obtain ⟨m, hm⟩ := mem_writtenSlots.1 hw
        obtain ⟨state', e, k, hstate', he, hex, hk, hnumber⟩ := exists_definition (r := r) hb hs hm
        have hev := h.localOf?_of_liveAt hp hv hq hlive hb hstate' he hex hxv
        exact hkept (hblock.writes hs hstate hk hnumber hev)
      refine ⟨hw, ?_, hlive⟩
      rintro ⟨state', d, hstate', hd, hdx⟩
      obtain rfl := Option.some.inj (hafter.symm.trans hstate')
      rcases mem_transfer (Flow.mem_order.2 hb) hs hd with hd | ⟨m, y, hm, hdy⟩
      · exact hunreached ⟨state, d, hstate, hd, hdx⟩
      · obtain rfl : y = x := Option.some.inj (hdy.symm.trans hdx)
        exact hw (mem_writtenSlots.2 ⟨m, hm⟩)

theorem Resolved.not_liveAt (hb : (Flow.of p).isReachable b = true) (n : Nat) (hs : (p.body b)[i + n]? = some s)
    (hx : x ∈ s.writtenSlots) (hunreached : ¬(of p (.of p)).Reached p r x (b, i))
    (hxv : (of p (.of p)).Holds c x v) : ¬q.LiveAt .var v (b, i) := by
  intro hlive
  induction n generalizing i with
  | zero => exact (h.liveAt_succ hp hv hq hb hs hunreached hxv hlive).1 hx
  | succ n ih =>
    have hi : i < (p.body b).length := by
      have := (List.getElem?_eq_some_iff.1 hs).1
      omega
    obtain ⟨-, hunreached, hlive⟩ :=
      h.liveAt_succ hp hv hq hb (List.getElem?_eq_getElem hi) hunreached hxv hlive
    rw [Nat.add_succ, ← Nat.succ_add] at hs
    exact ih hs hunreached hlive

theorem Resolved.eq_of_reached {pt : Point} {w : LocalId} (hb : (Flow.of p).isReachable pt.1 = true)
    (hreached : (of p (.of p)).Reached p r x pt) (hxv : (of p (.of p)).Holds c x v)
    (hxw : (of p (.of p)).Holds c x w) (hlive : q.LiveAt .var v pt) (hlive' : q.LiveAt .var w pt) : v = w := by
  obtain ⟨state, d, hstate, hd, hx⟩ := hreached
  have hdv := h.localOf?_of_liveAt hp hv hq hlive hb hstate hd hx hxv
  have hdw := h.localOf?_of_liveAt hp hv hq hlive' hb hstate hd hx hxw
  exact Option.some.inj (hdv.symm.trans hdw)

end Resolved

end Definitions

theorem LiveRange.of_mem_points {p : Proto} {f : Flow} {l : Liveness} {a : LiveRange} {b : BlockId} {i : Nat}
    (ha : a ∈ ofLiveness p f l) (hpt : (b, i) ∈ a.points) :
    f.isReachable b = true ∧ ∃ live, (l.points .var p b)[i]? = some live ∧ a.var ∈ live := by
  unfold ofLiveness at ha
  obtain ⟨v, -, rfl⟩ := List.mem_map.1 ha
  obtain ⟨⟨live, _⟩, hmem, rfl⟩ := List.mem_map.1 hpt
  obtain ⟨hmem, hlive⟩ := List.mem_filter.1 hmem
  obtain ⟨c, hc, hat⟩ := List.mem_flatMap.1 hmem
  obtain ⟨⟨live', j⟩, hj, he⟩ := List.mem_map.1 hat
  cases he
  exact ⟨(List.mem_filter.1 hc).2, live, List.mem_zipIdx_iff_getElem?.1 hj, of_decide_eq_true hlive⟩

theorem Stmt.isReturn_bindSlots (read : Slot → Expr) (written : Nat → Option LocalId) (s : Stmt) :
    (s.bindSlots read written).isReturn = s.isReturn := by
  cases s <;> rfl

theorem Stmt.isDeclaration_bindSlots (read : Slot → Expr) (written : Nat → Option LocalId) (s : Stmt) :
    (s.bindSlots read written).isDeclaration = s.isDeclaration := by
  cases s <;> rfl

theorem Definitions.map_bindBlock {α : Type} {g : Stmt → α}
    (hg : ∀ read written s, g (s.bindSlots read written) = g s) {ds : Definitions} {p : Proto}
    {c : Partition} {r : Reaching} {b : BlockId} (block : Block) :
    (ds.bindBlock p c r b block).body.map g = block.body.map g := by
  conv_rhs => rw [← List.zipIdx_map_fst 0 block.body, List.map_map]
  rw [bindBlock, List.map_map]
  apply List.map_congr_left
  intro e _
  exact hg _ _ e.1

namespace Proto

open Definitions

variable {p q : Proto} {t : Locals} {rounds : Nat}

theorem wellShaped_of_resolve (hp : p.WellShaped) (hr : p.resolve rounds = .ok (q, t)) : q.WellShaped := by
  obtain ⟨l, r, -, -, hblocks, -⟩ := resolve_eq_ok hr
  apply hp.map_blocks hblocks
  · rintro ⟨block, b⟩
    dsimp only
    split <;> rfl
  · rintro ⟨block, b⟩
    dsimp only
    split
    · cases hj : block.jump <;> simp [bindBlock, hj, Jump.mapCondition, Jump.targets]
    · rfl
  · rintro ⟨block, b⟩
    dsimp only
    split
    · exact map_bindBlock Stmt.isReturn_bindSlots block
    · rfl
  · rintro ⟨block, b⟩
    dsimp only
    split
    · exact map_bindBlock Stmt.isDeclaration_bindSlots block
    · rfl

section Rewritten

variable (hp : p.WellShaped) (hqs : q.WellShaped) {c : Partition} {r : Reaching}
  (hq : ∀ b ∈ (Flow.of p).order, ∃ block, (of p (.of p)).Rewritten p q r c b block)
include hp hqs hq

theorem isReachable_of_rewritten {b : BlockId} (hb : (Flow.of q).isReachable b = true) :
    (Flow.of p).isReachable b = true := by
  induction hb using hqs.reachable_induction with
  | zero => exact hp.isReachable_zero
  | target a t ha ht ih =>
    obtain ⟨block, hblock⟩ := hq a (Flow.mem_order.2 ih)
    exact hp.isReachable_target ih (hblock.targets_jump ▸ ht)

theorem liveAt_of_mem_points {l : Liveness}
    (hl : (Liveness.equations .var hqs).Solves l.after l.before) {a : LiveRange}
    (ha : a ∈ LiveRange.ofLiveness q (.of q) l) {b : BlockId} {i : Nat} (hpt : (b, i) ∈ a.points) :
    (Flow.of p).isReachable b = true ∧ i ≤ (p.body b).length ∧ q.LiveAt .var a.var (b, i) := by
  obtain ⟨hb, live, hlive, hmem⟩ := LiveRange.of_mem_points ha hpt
  have hbp := isReachable_of_rewritten hp hqs hq hb
  refine ⟨hbp, ?_, (Liveness.mem_points_iff hqs hl hb hlive).1 hmem⟩
  obtain ⟨block, hblock⟩ := hq b (Flow.mem_order.2 hbp)
  have hi := (List.getElem?_eq_some_iff.1 hlive).1
  rw [Liveness.points_eq hblock.after, Liveness.length_pointsOf, hblock.length_body] at hi
  exact Nat.le_of_lt_succ hi

end Rewritten

/-- At a point that a definition of a slot reaches along some path, no two variables of the slot are live.
If the slot is a parameter or the first block writes it, the live ranges of its variables are disjoint. -/
theorem resolve_disjoint (hp : p.violation? = none) (hv : p.VarFree) (hr : p.resolve rounds = .ok (q, t)) :
    ∃ ranges, (∀ m, p.blocks.length + 2 ≤ m → q.liveRanges m = .ok ranges) ∧
      (∀ m found, q.liveRanges m = .ok found → found = ranges) ∧
      (∀ x pt, p.DefinedAt x pt → ∀ a ∈ ranges, ∀ b ∈ ranges, pt ∈ a.points → pt ∈ b.points →
        t.slot? a.var = some x → t.slot? b.var = some x → a.var = b.var) ∧
      ∀ x, (x < p.parameters ∨ ∃ s ∈ p.body 0, x ∈ s.writtenSlots) → ∀ a ∈ ranges, ∀ b ∈ ranges,
        a.var ≠ b.var → t.slot? a.var = some x → t.slot? b.var = some x → a.interferes b = false := by
  have hshape := wellShaped_of_violation hp
  have hqs := wellShaped_of_resolve hshape hr
  obtain ⟨r, c, h, rfl, hq⟩ := resolved_of_resolve hshape hr
  obtain ⟨l, hl, hsettles, hunique⟩ := Liveness.exists_solve hqs .var
  have hlength : q.blocks.length = p.blocks.length := by
    obtain ⟨_, _, -, -, hblocks, -⟩ := resolve_eq_ok hr
    simp [hblocks]
  have same (x : Slot) (pt : Point) (hreached : (of p (.of p)).Reached p r x pt) (a : LiveRange)
      (ha : a ∈ LiveRange.ofLiveness q (.of q) l) (b : LiveRange) (hb : b ∈ LiveRange.ofLiveness q (.of q) l)
      (hpa : pt ∈ a.points) (hpb : pt ∈ b.points) (hxa : ((of p (.of p)).locals p c).slot? a.var = some x)
      (hxb : ((of p (.of p)).locals p c).slot? b.var = some x) : a.var = b.var := by
    obtain ⟨hrb, -, hlive⟩ := liveAt_of_mem_points hshape hqs hq hl ha hpa
    obtain ⟨-, -, hlive'⟩ := liveAt_of_mem_points hshape hqs hq hl hb hpb
    exact h.eq_of_reached hshape hv hq hrb hreached ((slot?_locals h.coherent).1 hxa)
      ((slot?_locals h.coherent).1 hxb) hlive hlive'
  refine ⟨LiveRange.ofLiveness q (.of q) l, fun m hm => ?_, fun m found hfound => ?_, ?_, ?_⟩
  · rw [liveRanges, hsettles m (hlength ▸ hm)]
    rfl
  · unfold liveRanges at hfound
    cases hm : Liveness.solve .var q m with
    | error e => rw [hm] at hfound; cases hfound
    | ok k =>
      rw [hm, hunique m k hm] at hfound
      cases hfound
      rfl
  · intro x pt hdefined
    exact same x pt (reached_of_definedAt hshape h.settled hdefined)
  · intro x hentry a ha b hb hne hxa hxb
    rw [Bool.eq_false_iff]
    intro hmeet
    obtain ⟨⟨d, i⟩, hpa, hpb⟩ : ∃ pt ∈ a.points, pt ∈ b.points := by
      simpa [LiveRange.interferes, overlap] using hmeet
    obtain ⟨hrd, hi, hlive⟩ := liveAt_of_mem_points hshape hqs hq hl ha hpa
    -- Where no definition of the slot reaches, none of its variables is live: the slot is written before it is read.
    by_cases hreached : (of p (.of p)).Reached p r x (d, i)
    · exact hne (same x (d, i) hreached a ha b hb hpa hpb hxa hxb)
    · have hundefined : ¬p.DefinedAt x (d, i) := fun hd => hreached (reached_of_definedAt hshape h.settled hd)
      rcases hentry with hx | ⟨s, hs, hx⟩
      · exact hundefined (.inl ⟨hx, hshape.flows_entry hrd hi⟩)
      · obtain ⟨n, hn⟩ := hshape.writes_after hrd hi hs hx hundefined
        exact h.not_liveAt hshape hv hq hrd n hn hx hreached ((slot?_locals h.coherent).1 hxa) hlive

def reused : Proto :=
  { id := 0
    blocks := [
      ⟨0, 0, 0, [.assign ⟨[.slot 0], [.global "a"], false, 0⟩, .call (.global "f") [.slot 0] 0,
        .assign ⟨[.slot 0], [.global "b"], false, 0⟩], .always 1⟩,
      ⟨1, 1, 1, [.ret [.slot 0] 0], .leave⟩] }

theorem resolve_disjoint_reused : ∃ q t ranges, reused.resolve 4 = .ok (q, t) ∧ t.bySlot 0 = [0, 1] ∧
    q.liveRanges 4 = .ok ranges ∧
      ∀ a ∈ ranges, ∀ b ∈ ranges, a.var = 0 → b.var = 1 → a.interferes b = false := by
  have hr : reused.resolve 4 = .ok
      ({ id := 0
         blocks := [
          ⟨0, 0, 0, [.assign ⟨[.var 0], [.global "a"], false, 0⟩, .call (.global "f") [.var 0] 0,
            .assign ⟨[.var 1], [.global "b"], false, 0⟩], .always 1⟩,
          ⟨1, 1, 1, [.ret [.var 1] 0], .leave⟩] },
        ⟨[⟨0, "slot0", .plain⟩, ⟨0, "slot0_1", .plain⟩]⟩) := by cbv
  obtain ⟨ranges, hranges, -, -, hdisjoint⟩ := resolve_disjoint (by cbv) (by cbv) hr
  refine ⟨_, _, ranges, hr, by decide, hranges 4 (by decide), fun a ha b hb hav hbv => ?_⟩
  have hentry : ∃ s ∈ reused.body 0, 0 ∈ s.writtenSlots := ⟨_, .head _, .head _⟩
  apply hdisjoint 0 (.inr hentry) a ha b hb
  · rw [hav, hbv]
    decide
  · rw [hav]
    rfl
  · rw [hbv]
    rfl

end Proto

end LuaLift
