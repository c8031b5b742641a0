import LuaLift.Proofs.Slots.Resolve

/-!
A closure shares the variables it captures. From a read on, and so from a capture on, the variable of
the read holds what the slot holds, as long as the writes to the slot go to this variable.
-/

namespace LuaLift

variable {V : Type}

def Stmt.Moves (x : Slot) (v : LocalId) (s u : Stmt) : Prop :=
  ∀ n, (n, x) ∈ s.slotTargets → ∃ a, u = .assign a ∧ a.targets[n]? = some (.var v)

namespace Definitions

variable {ds : Definitions} {c : Partition} {state : NatSet} {σ τ : Store V} {b : BlockId} {i : Nat}
  {s u : Stmt} {x : Slot} {v : LocalId}

def Holds (ds : Definitions) (c : Partition) (x : Slot) (v : LocalId) : Prop :=
  ∃ d, ds.slot? d = some x ∧ ds.localOf? c d = some v

theorem Holds.slot_eq (hc : ds.Coherent c) (h : ds.Holds c x v) {y : Slot} (hy : ds.Holds c y v) :
    y = x := by
  obtain ⟨d, hd, hdv⟩ := h
  obtain ⟨e, he, hev⟩ := hy
  have hslot := slot?_of_localOf? hc hev hdv
  rw [hd, he] at hslot
  exact Option.some.inj hslot

theorem Sees.read (hs : ds.Sees c b i state s) (h : ds.Tracks c state σ τ) {n : Nat}
    (hx : (s.operands.flatMap Expr.cells)[n]? = some ⟨.slot, x⟩)
    (hv : ((s.bindSlots (ds.read c state) (ds.writtenAt c b i)).operands.flatMap Expr.cells)[n]? =
      some ⟨.var, v⟩) : ds.Holds c x v ∧ τ ⟨.var, v⟩ = σ ⟨.slot, x⟩ := by
  obtain ⟨y, hy, hbound⟩ := hs.bound _ (List.mem_of_getElem? hx)
  cases hy
  rw [Stmt.operands_bindSlots, cells_read, List.getElem?_map, hx, Option.map_some] at hv
  have hcell : ds.readCell c state x = ⟨.var, v⟩ := Option.some.inj hv
  obtain ⟨d, w, hd, hw, hr⟩ := hbound.readCell
  refine ⟨⟨d, (mem_ofSlot.1 hd).2, ?_⟩, hcell ▸ h.read hbound⟩
  rw [hw]
  rw [hcell] at hr
  cases hr
  rfl

theorem Sees.writtenAt (hs : ds.Sees c b i state s) {n : Nat} (hx : (n, x) ∈ s.slotTargets) :
    ∃ w, ds.Holds c x w ∧ ds.writtenAt c b i n = some w := by
  obtain ⟨d, hd, hdx⟩ := hs.numbered n x hx
  obtain ⟨w, hw⟩ := exists_localOf? (c := c) (lt_size_of_slot? hdx)
  exact ⟨w, ⟨d, hdx, hw⟩, by simp [Definitions.writtenAt, hd, hw]⟩

theorem writtenAt_of_moves {read : Slot → Expr} {written : Nat → Option LocalId}
    (h : s.Moves x v (s.bindSlots read written)) {n : Nat} (hx : (n, x) ∈ s.slotTargets) {w : LocalId}
    (hw : written n = some w) : w = v := by
  obtain ⟨a, rfl, ha⟩ := mem_slotTargets.1 hx
  obtain ⟨a', ha', hv⟩ := h n hx
  cases ha'
  rw [List.getElem?_map, List.getElem?_zipIdx, ha] at hv
  simpa [Stmt.bindTarget, hw] using hv

theorem assignAll_shared (hc : ds.Coherent c) (read : Slot → Expr) (value : Nat → V) (hxv : ds.Holds c x v)
    {targets : List Expr} (k : Nat) (hvar : ∀ e ∈ targets, e.var? = none)
    (hdef : ∀ n y, (.slot y, n) ∈ targets.zipIdx k →
      ∃ w, ds.Holds c y w ∧ ds.writtenAt c b i n = some w ∧ (y = x → w = v))
    (heq : τ ⟨.var, v⟩ = σ ⟨.slot, x⟩) :
    Stmt.assignAll value τ (((targets.zipIdx k).map fun (e, j) =>
        Stmt.bindTarget read (ds.writtenAt c b i) e j).zipIdx k) ⟨.var, v⟩ =
      Stmt.assignAll value σ (targets.zipIdx k) ⟨.slot, x⟩ := by
  induction targets generalizing k σ τ with
  | nil => exact heq
  | cons e targets ih =>
    have hvar' : ∀ e ∈ targets, e.var? = none := fun e' he' => hvar e' (.tail _ he')
    have hdef' : ∀ n y, (.slot y, n) ∈ targets.zipIdx (k + 1) →
        ∃ w, ds.Holds c y w ∧ ds.writtenAt c b i n = some w ∧ (y = x → w = v) := by
      intro n y hn
      apply hdef n y
      rw [List.zipIdx_cons]
      exact .tail _ hn
    rw [List.zipIdx_cons, List.map_cons, List.zipIdx_cons]
    cases e with
    | slot y =>
      obtain ⟨w, hw, hwritten, hmove⟩ := hdef k y (.head _)
      have heq' : (τ.set ⟨.var, w⟩ (value k)) ⟨.var, v⟩ = (σ.set ⟨.slot, y⟩ (value k)) ⟨.slot, x⟩ := by
        by_cases hy : y = x
        -- The write goes to the slot and to the variable with the same value.
        · rw [hmove hy, hy, Store.set_self, Store.set_self]
        · have hwv : v ≠ w := by
            rintro rfl
            exact hy (hxv.slot_eq hc hw)
          rw [Store.set_of_ne _ _ (by simpa using hwv), Store.set_of_ne _ _ (by simpa using Ne.symm hy), heq]
      have := ih (k + 1) hvar' hdef' heq'
      simpa [Stmt.assignAll, Stmt.bindTarget, Expr.cell?, hwritten] using this
    | var w => exact absurd (hvar _ (.head _)) (by simp [Expr.var?])
    | _ =>
      have := ih (k + 1) hvar' hdef' heq
      simpa [Stmt.assignAll, Stmt.bindTarget, Expr.cell?] using this

theorem Sees.execute_shared (hs : ds.Sees c b i state s) (hc : ds.Coherent c) (I : Valuation V)
    (h : ds.Tracks c state σ τ) (hxv : ds.Holds c x v)
    (hmoves : s.Moves x v (s.bindSlots (ds.read c state) (ds.writtenAt c b i)))
    (heq : τ ⟨.var, v⟩ = σ ⟨.slot, x⟩) :
    (s.bindSlots (ds.read c state) (ds.writtenAt c b i)).execute I τ ⟨.var, v⟩ =
      s.execute I σ ⟨.slot, x⟩ := by
  cases s with
  | assign a =>
    simp only [Stmt.execute, Stmt.bindSlots, hs.see_values h]
    refine assignAll_shared hc (ds.read c state) _ hxv 0 (fun e => hs.var?_target) (fun n y hn => ?_) heq
    have hmem : (n, y) ∈ (Stmt.assign a).slotTargets :=
      mem_slotTargets.2 ⟨a, rfl, List.mem_zipIdx_iff_getElem?.1 hn⟩
    obtain ⟨w, hw, hwritten⟩ := hs.writtenAt hmem
    refine ⟨w, hw, hwritten, ?_⟩
    rintro rfl
    exact writtenAt_of_moves hmoves hmem hwritten
  | call f as l => exact heq
  | ret vs l => exact heq
  | declare vs => exact heq

variable {ss us : List Stmt} {last : NatSet}

namespace Rewrites

theorem mono {state' : NatSet} (h : ds.Rewrites c state' ss us last) (hsub : ∀ d ∈ state, d ∈ state') :
    ds.Rewrites c state ss us last := by
  cases h with
  | nil hsub' => exact .nil fun d hd => hsub' d (hsub d hd)
  | cons hsub' hs h => exact .cons (fun d hd => hsub' d (hsub d hd)) hs h

theorem append {mid : NatSet} {ss' us' : List Stmt} (h : ds.Rewrites c state ss us mid)
    (h' : ds.Rewrites c mid ss' us' last) : ds.Rewrites c state (ss ++ ss') (us ++ us') last := by
  induction h with
  | nil hsub => exact h'.mono hsub
  | cons hsub hs _ ih => exact .cons hsub hs (ih h')

variable (h : ds.Rewrites c state ss us last) (hc : ds.Coherent c) (I : Valuation V)
include h hc

theorem along_shared (ht : ds.Tracks c state σ τ) (hxv : ds.Holds c x v) {j : Nat}
    (hmoves : ∀ k s u, k < j → ss[k]? = some s → us[k]? = some u → s.Moves x v u)
    (heq : τ ⟨.var, v⟩ = σ ⟨.slot, x⟩) :
    (Stmt.along I (us.take j) τ).2 ⟨.var, v⟩ = (Stmt.along I (ss.take j) σ).2 ⟨.slot, x⟩ := by
  -- The stores have to agree on all bound slots, since these decide what is written.
  induction h generalizing σ τ j with
  | nil => simpa [Stmt.along] using heq
  | cons hsub hs h ih =>
    cases j with
    | zero => simpa [Stmt.along] using heq
    | succ j =>
      have ht' := ht.mono hsub
      have hstep := hs.execute_shared hc I ht' hxv (hmoves 0 _ _ (by omega) rfl rfl) heq
      rw [List.take_succ_cons, List.take_succ_cons]
      apply ih (hs.execute hc I ht') _ hstep
      intro k s u hk hs hu
      exact hmoves (k + 1) s u (by omega) hs hu

theorem shares (ht : ds.Tracks c state σ τ) {i j n : Nat} (hij : i ≤ j) (hs : ss[i]? = some s)
    (hu : us[i]? = some u) (hx : (s.operands.flatMap Expr.cells)[n]? = some ⟨.slot, x⟩)
    (hv : (u.operands.flatMap Expr.cells)[n]? = some ⟨.var, v⟩)
    (hmoves : ∀ k s u, i ≤ k → k < j → ss[k]? = some s → us[k]? = some u → s.Moves x v u) :
    (Stmt.along I (us.take j) τ).2 ⟨.var, v⟩ = (Stmt.along I (ss.take j) σ).2 ⟨.slot, x⟩ := by
  induction h generalizing σ τ i j with
  | nil => simp at hs
  | cons hsub hsees h ih =>
    have ht' := ht.mono hsub
    cases i with
    | zero =>
      cases hs
      cases hu
      obtain ⟨hxv, heq⟩ := hsees.read ht' hx hv
      apply (Rewrites.cons hsub hsees h).along_shared hc I ht hxv _ heq
      intro k s u hk
      exact hmoves k s u (Nat.zero_le k) hk
    | succ i =>
      obtain ⟨j, rfl⟩ : ∃ j', j = j' + 1 := ⟨j - 1, by omega⟩
      rw [List.take_succ_cons, List.take_succ_cons]
      apply ih (hsees.execute hc I ht') (by omega) hs hu
      intro k s u hik hkj hs hu
      exact hmoves (k + 1) s u (by omega) (by omega) hs hu

end Rewrites

theorem Rewrites.moves (h : ds.Rewrites c state ss us last) (hall : ∀ w, ds.Holds c x w → w = v) {k : Nat}
    (hs : ss[k]? = some s) (hu : us[k]? = some u) : s.Moves x v u := by
  induction h generalizing k with
  | nil => simp at hs
  | cons hsub hsees h ih =>
    cases k with
    | succ k => exact ih hs hu
    | zero =>
      cases hs
      cases hu
      intro n hn
      obtain ⟨w, hw, hwritten⟩ := hsees.writtenAt hn
      obtain ⟨a, rfl, ha⟩ := mem_slotTargets.1 hn
      refine ⟨_, rfl, ?_⟩
      rw [List.getElem?_map, List.getElem?_zipIdx, ha]
      simp [Stmt.bindTarget, hwritten, hall w hw]

theorem Resolved.rewrites_path {p q : Proto} {r : Reaching}
    (h : (Definitions.of p (.of p)).Resolved p r c) (hp : p.WellShaped) (hv : p.VarFree)
    (hq : ∀ b ∈ (Flow.of p).order, ∃ block, (Definitions.of p (.of p)).Rewritten p q r c b block)
    {path : List BlockId} (hb : ∀ b ∈ path.head?, b ∈ (Flow.of p).order)
    (hchain : path.IsChain fun a b => b ∈ (p.jump a).targets)
    (hstate : ∀ b ∈ path.head?, ∀ d ∈ state, d ∈ r.atEntry b) :
    ∃ last, (Definitions.of p (.of p)).Rewrites c state (path.flatMap p.body) (path.flatMap q.body) last := by
  induction path generalizing state with
  | nil => exact ⟨state, .nil fun d hd => hd⟩
  | cons a path ih =>
    have ha := hb a rfl
    obtain ⟨block, hblock⟩ := hq a ha
    have hra := Flow.mem_order.1 ha
    have htarget (b : BlockId) (hpath : b ∈ path.head?) : b ∈ (p.jump a).targets :=
      (List.isChain_cons.1 hchain).1 b hpath
    have hnext (b : BlockId) (hpath : b ∈ path.head?) : b ∈ (Flow.of p).order :=
      Flow.mem_order.2 (hp.isReachable_target hra (htarget b hpath))
    have hexit (b : BlockId) (hpath : b ∈ path.head?) (d : Nat) (hd : d ∈ r.atExit a) : d ∈ r.atEntry b :=
      h.settled.edge hp hra (htarget b hpath) hd
    obtain ⟨last, hrest⟩ := ih hnext hchain.tail hexit
    rw [List.flatMap_cons, List.flatMap_cons]
    exact ⟨last, ((h.rewrites_body hblock hv ha).mono (hstate a rfl)).append hrest⟩

end Definitions

namespace Proto

open Definitions

variable {p q : Proto} {t : Locals} {rounds : Nat} {path : List BlockId} {i j n : Nat} {s u : Stmt}
  {x : Slot} {v : LocalId}

theorem rewrites_of_resolve (hp : p.WellShaped) (hv : p.VarFree) (hr : p.resolve rounds = .ok (q, t))
    (hpath : p.IsPath path) : ∃ c state last, (Definitions.of p (.of p)).Coherent c ∧
      t = (Definitions.of p (.of p)).locals p c ∧
      (Definitions.of p (.of p)).Rewrites c state (path.flatMap p.body) (path.flatMap q.body) last ∧
      ∀ (args : Slot → V), (Definitions.of p (.of p)).Tracks c state (.ofSlots p.parameters args)
        (.ofLocals t args) := by
  obtain ⟨r, c, h, rfl, hq⟩ := resolved_of_resolve hp hr
  have hstate (b : BlockId) (hb : b ∈ path.head?) (d : Nat) (hd : d ∈ r.atEntry 0) : d ∈ r.atEntry b := by
    rw [hpath.entry b hb]
    exact hd
  obtain ⟨last, hrewrites⟩ := h.rewrites_path hp hv hq (fun b => hpath.head_mem_order hp) hpath.chain hstate
  refine ⟨c, r.atEntry 0, last, h.coherent, rfl, hrewrites, fun args => ?_⟩
  exact tracks_start h.coherent (fun d => h.settled.parameters hp) args

/-- A variable that is read for a slot, by a capture or otherwise, holds what the slot holds, up to a
write to the slot that goes elsewhere. -/
theorem resolve_shares (hp : p.violation? = none) (hv : p.VarFree) (hr : p.resolve rounds = .ok (q, t))
    (I : Valuation V) (args : Slot → V) (hpath : p.IsPath path) (hij : i ≤ j)
    (hs : (path.flatMap p.body)[i]? = some s) (hu : (path.flatMap q.body)[i]? = some u)
    (hx : (s.operands.flatMap Expr.cells)[n]? = some ⟨.slot, x⟩)
    (hxv : (u.operands.flatMap Expr.cells)[n]? = some ⟨.var, v⟩)
    (hmoves : ∀ k s u, i ≤ k → k < j → (path.flatMap p.body)[k]? = some s →
      (path.flatMap q.body)[k]? = some u → s.Moves x v u) :
    (Stmt.along I ((path.flatMap q.body).take j) (.ofLocals t args)).2 ⟨.var, v⟩ =
      (Stmt.along I ((path.flatMap p.body).take j) (.ofSlots p.parameters args)).2 ⟨.slot, x⟩ := by
  have hshape := wellShaped_of_violation hp
  obtain ⟨c, state, last, hc, -, h, ht⟩ := rewrites_of_resolve (V := V) hshape hv hr hpath
  exact h.shares hc I (ht args) hij hs hu hx hxv hmoves

theorem resolve_shares_of_unique (hp : p.violation? = none) (hv : p.VarFree)
    (hr : p.resolve rounds = .ok (q, t)) (I : Valuation V) (args : Slot → V) (hpath : p.IsPath path)
    (hij : i ≤ j) (hs : (path.flatMap p.body)[i]? = some s) (hu : (path.flatMap q.body)[i]? = some u)
    (hx : (s.operands.flatMap Expr.cells)[n]? = some ⟨.slot, x⟩)
    (hxv : (u.operands.flatMap Expr.cells)[n]? = some ⟨.var, v⟩)
    (hunique : ∀ w l, t.get? w = some l → l.slot = x → w = v) :
    (Stmt.along I ((path.flatMap q.body).take j) (.ofLocals t args)).2 ⟨.var, v⟩ =
      (Stmt.along I ((path.flatMap p.body).take j) (.ofSlots p.parameters args)).2 ⟨.slot, x⟩ := by
  have hshape := wellShaped_of_violation hp
  obtain ⟨c, state, last, hc, rfl, h, ht⟩ := rewrites_of_resolve (V := V) hshape hv hr hpath
  apply h.shares hc I (ht args) hij hs hu hx hxv
  intro k s u _ _ hs hu
  apply h.moves _ hs hu
  intro w hw
  obtain ⟨d, hd, hdw⟩ := hw
  obtain ⟨m, hm⟩ := get?_locals (p := p) hc hd hdw
  exact hunique w _ hm (slot_localOfRoot _ _ _)

def rewritten : Proto :=
  { id := 0
    blocks := [
      ⟨0, 0, 0, [.assign ⟨[.slot 0], [.global "a"], false, 0⟩,
        .assign ⟨[.slot 1], [.closure 0 [.slot 0]], false, 0⟩], .branch (.global "c") 1 2⟩,
      ⟨1, 1, 1, [.assign ⟨[.slot 0], [.global "b"], false, 0⟩], .always 2⟩,
      ⟨2, 2, 2, [.ret [.call (.slot 1) [.slot 0]] 0], .leave⟩] }

theorem resolve_shares_rewritten : ∃ q t, rewritten.resolve 4 = .ok (q, t) ∧
    ∀ (I : Valuation (List Expr)) (args : Slot → List Expr),
      (Stmt.along I (([0, 1, 2].flatMap q.body).take 3) (.ofLocals t args)).2 ⟨.var, 0⟩ =
        (Stmt.along I (([0, 1, 2].flatMap rewritten.body).take 3) (.ofSlots 0 args)).2 ⟨.slot, 0⟩ := by
  have hr : rewritten.resolve 4 = .ok
      ({ id := 0
         blocks := [
          ⟨0, 0, 0, [.assign ⟨[.var 0], [.global "a"], false, 0⟩,
            .assign ⟨[.var 1], [.closure 0 [.var 0]], false, 0⟩], .branch (.global "c") 1 2⟩,
          ⟨1, 1, 1, [.assign ⟨[.var 0], [.global "b"], false, 0⟩], .always 2⟩,
          ⟨2, 2, 2, [.ret [.call (.var 1) [.var 0]] 0], .leave⟩] },
        ⟨[⟨0, "slot0", .plain⟩, ⟨1, "slot1", .plain⟩]⟩) := by cbv
  refine ⟨_, _, hr, fun I args => ?_⟩
  refine resolve_shares_of_unique (i := 1) (n := 0) (by cbv) (by cbv) hr I args ⟨by simp, ?_⟩ (by decide)
    rfl rfl rfl rfl fun w l hl hslot => ?_
  · simp [rewritten, jump, Jump.targets]
  · cases w with
    | zero => rfl
    | succ w =>
      cases w with
      | zero =>
        cases hl
        cases hslot
      | succ w => cases hl

def overwritten : Proto :=
  { id := 0
    blocks := [⟨0, 0, 0, [.assign ⟨[.slot 0], [.global "a"], false, 0⟩,
      .assign ⟨[.slot 1], [.closure 0 [.slot 0]], false, 0⟩,
      .assign ⟨[.slot 0], [.global "b"], false, 0⟩, .ret [.call (.slot 1) []] 0], .leave⟩] }

/-- The write gets a variable of its own, and the closure misses it. -/
theorem not_shares_overwritten : ∃ q t, overwritten.resolve 4 = .ok (q, t) ∧
    ∀ args : Slot → List Expr,
      (Stmt.along (fun seen _ => seen.1) (q.body 0) (.ofLocals t args)).2 ⟨.var, 0⟩ = some [.global "a"] ∧
      (Stmt.along (fun seen _ => seen.1) (overwritten.body 0) (.ofSlots 0 args)).2 ⟨.slot, 0⟩ =
        some [.global "b"] := by
  have hr : overwritten.resolve 4 = .ok
      ({ id := 0
         blocks := [⟨0, 0, 0, [.assign ⟨[.var 0], [.global "a"], false, 0⟩,
          .assign ⟨[.var 1], [.closure 0 [.var 0]], false, 0⟩,
          .assign ⟨[.var 2], [.global "b"], false, 0⟩, .ret [.call (.var 1) []] 0], .leave⟩] },
        ⟨[⟨0, "slot0", .plain⟩, ⟨1, "slot1", .plain⟩, ⟨0, "slot0_1", .plain⟩]⟩) := by cbv
  exact ⟨_, _, hr, fun args => ⟨rfl, rfl⟩⟩

end Proto

end LuaLift
