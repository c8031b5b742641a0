import Mathlib
import LuaLift.Proofs.Slots.Variables

namespace LuaLift

variable {V : Type}

namespace Stmt

variable {read : Slot → Expr} {written : Nat → Option LocalId}

theorem targetOperands_bindTarget (e : Expr) (i : Nat) :
    (bindTarget read written e i).targetOperands = e.targetOperands.map (Expr.bindSlots read) := by
  cases e with
  | slot s =>
    simp only [bindTarget]
    cases written i <;> rfl
  | _ => rfl

theorem operands_bindSlots (s : Stmt) :
    (s.bindSlots read written).operands = s.operands.map (Expr.bindSlots read) := by
  cases s with
  | assign a =>
    have htargets (k : Nat) : ((a.targets.zipIdx k).map fun t => bindTarget read written t.1 t.2).flatMap
        Expr.targetOperands = (a.targets.flatMap Expr.targetOperands).map (Expr.bindSlots read) := by
      induction a.targets generalizing k with
      | nil => rfl
      | cons e l ih => simp [List.zipIdx_cons, targetOperands_bindTarget, ih]
    simp [bindSlots, operands, htargets, Expr.bindSlotsList_eq_map]
  | call f as l => simp [bindSlots, operands, Expr.bindSlotsList_eq_map]
  | ret vs l => simp [bindSlots, operands, Expr.bindSlotsList_eq_map]
  | declare vs => rfl

end Stmt

theorem Jump.condition?_mapCondition (f : Expr → Expr) (j : Jump) :
    (j.mapCondition f).condition? = j.condition?.map f := by
  cases j <;> rfl

theorem Jump.reads_eq (kind : CellKind) (j : Jump) :
    j.reads kind = j.condition?.toList.flatMap (·.reads kind) := by
  cases j <;> simp [reads, condition?]

theorem Proto.VarFree.statement {p : Proto} (h : p.VarFree) {b : Block} (hb : b ∈ p.blocks) {s : Stmt}
    (hs : s ∈ b.body) : s.readVars = [] ∧ s.writtenVars = [] := by
  have := List.all_eq_true.1 h b hb
  simp only [Bool.and_eq_true, List.all_eq_true, List.isEmpty_iff] at this
  exact this.1 s hs

theorem Proto.VarFree.jump {p : Proto} (h : p.VarFree) {b : Block} (hb : b ∈ p.blocks) :
    b.jump.reads .var = [] := by
  have := List.all_eq_true.1 h b hb
  simp only [Bool.and_eq_true, List.isEmpty_iff] at this
  exact this.2

namespace Definitions

variable {ds : Definitions} {c : Partition} {state : NatSet} {σ τ : Store V}

def AllBound (ds : Definitions) (c : Partition) (state : NatSet) (es : List Expr) : Prop :=
  ∀ d ∈ es.flatMap Expr.cells, ∃ x, d = ⟨.slot, x⟩ ∧ ds.Bound c state x

theorem AllBound.of_reads {es : List Expr} (hvars : es.flatMap (·.reads .var) = [])
    (hslots : ∀ x ∈ es.flatMap (·.reads .slot), ds.Bound c state x) : ds.AllBound c state es := by
  rintro ⟨_ | _, x⟩ hd <;> obtain ⟨e, he, hx⟩ := List.mem_flatMap.1 hd
  · exact ⟨x, rfl, hslots x (List.mem_flatMap.2 ⟨e, he, Expr.mem_reads.2 hx⟩)⟩
  · have := List.mem_flatMap.2 ⟨e, he, Expr.mem_reads.2 hx⟩
    rw [hvars] at this
    cases this

theorem cells_read (es : List Expr) : (es.map (Expr.bindSlots (ds.read c state))).flatMap Expr.cells =
    (es.flatMap Expr.cells).map (Expr.slotsTo (ds.readCell c state)) := by
  rw [List.flatMap_map, List.map_flatMap, read_eq]
  congr 1
  funext e
  exact Expr.cells_bindSlots _ e

theorem Tracks.see (h : ds.Tracks c state σ τ) {es : List Expr} (hes : ds.AllBound c state es) :
    τ.see (es.map (Expr.bindSlots (ds.read c state))) = σ.see es := by
  refine Prod.ext ?_ ?_
  · simp only [Store.see, List.map_map]
    refine List.map_congr_left fun e _ => ?_
    rw [Function.comp_apply, read_eq, Expr.form_bindSlots]
  · simp only [Store.see, cells_read, List.map_map]
    refine List.map_congr_left fun d hd => ?_
    obtain ⟨x, rfl, hx⟩ := hes d hd
    exact h.read hx

theorem AllBound.slotFree {es : List Expr} (hes : ds.AllBound c state es) :
    (es.map (Expr.bindSlots (ds.read c state))).flatMap (·.reads .slot) = [] := by
  refine List.eq_nil_iff_forall_not_mem.2 fun x hx => ?_
  obtain ⟨e, he, hxe⟩ := List.mem_flatMap.1 hx
  have hcell := List.mem_flatMap.2 ⟨e, he, Expr.mem_reads.1 hxe⟩
  rw [cells_read] at hcell
  obtain ⟨d, hd, hdx⟩ := List.mem_map.1 hcell
  obtain ⟨y, rfl, hy⟩ := hes d hd
  obtain ⟨_, v, -, -, hv⟩ := hy.readCell
  simp [Expr.slotsTo, hv] at hdx

def writtenAt (ds : Definitions) (c : Partition) (b : BlockId) (i position : Nat) : Option LocalId :=
  (ds.number? (.target b i position)).bind (ds.localOf? c)

def defineAll (ds : Definitions) (b : BlockId) (i : Nat) (state : NatSet) (targets : List (Expr × Nat)) :
    NatSet :=
  (targets.filterMap fun (e, j) => e.slot?.map (j, ·)).foldl
    (fun state (position, slot) =>
      match ds.number? (.target b i position) with
      | some d => ds.define state slot d
      | none => state)
    state

theorem Tracks.assignAll (hc : ds.Coherent c) {b : BlockId} {i : Nat} (read : Slot → Expr) (value : Nat → V)
    {targets : List Expr} (k : Nat) (h : ds.Tracks c state σ τ) (hvar : ∀ e ∈ targets, e.var? = none)
    (hdef : ∀ n x, (.slot x, n) ∈ targets.zipIdx k →
      ∃ d, ds.number? (.target b i n) = some d ∧ ds.slot? d = some x) :
    ds.Tracks c (ds.defineAll b i state (targets.zipIdx k)) (Stmt.assignAll value σ (targets.zipIdx k))
      (Stmt.assignAll value τ (((targets.zipIdx k).map fun (e, j) =>
        Stmt.bindTarget read (ds.writtenAt c b i) e j).zipIdx k)) := by
  induction targets generalizing k state σ τ with
  | nil => exact h
  | cons e targets ih =>
    have hvar' : ∀ e ∈ targets, e.var? = none := fun e' he' => hvar e' (.tail _ he')
    have hdef' : ∀ n x, (.slot x, n) ∈ targets.zipIdx (k + 1) →
        ∃ d, ds.number? (.target b i n) = some d ∧ ds.slot? d = some x := by
      intro n x hn
      refine hdef n x ?_
      rw [List.zipIdx_cons]
      exact .tail _ hn
    rw [List.zipIdx_cons, List.map_cons, List.zipIdx_cons]
    cases e with
    | slot x =>
      obtain ⟨d, hd, hx⟩ := hdef k x (.head _)
      obtain ⟨v, hv⟩ := exists_localOf? (c := c) (lt_size_of_slot? hx)
      have hw : ds.writtenAt c b i k = some v := by simp [writtenAt, hd, hv]
      have := ih (k + 1) (h.define hc hx hv (value k)) hvar' hdef'
      simpa [defineAll, Stmt.assignAll, Stmt.bindTarget, Expr.cell?, Expr.slot?, hd, hw] using this
    | var v => exact absurd (hvar _ (.head _)) (by simp [Expr.var?])
    | _ =>
      have := ih (k + 1) h hvar' hdef'
      simpa [defineAll, Stmt.assignAll, Stmt.bindTarget, Expr.cell?, Expr.slot?] using this

structure Sees (ds : Definitions) (c : Partition) (b : BlockId) (i : Nat) (state : NatSet) (s : Stmt) :
    Prop where
  bound : ds.AllBound c state s.operands
  writtenVars : s.writtenVars = []
  numbered : ∀ n x, (n, x) ∈ s.slotTargets →
    ∃ d, ds.number? (.target b i n) = some d ∧ ds.slot? d = some x

variable {b : BlockId} {i : Nat} {s : Stmt}

theorem Sees.see_values {a : Assignment} (hs : ds.Sees c b i state (.assign a)) (h : ds.Tracks c state σ τ) :
    τ.see (Expr.bindSlotsList (ds.read c state) a.values) = σ.see a.values := by
  rw [Expr.bindSlotsList_eq_map]
  refine h.see fun d hd => hs.bound d ?_
  simp only [Stmt.operands, List.flatMap_append]
  exact List.mem_append_right _ hd

theorem Sees.var?_target {a : Assignment} (hs : ds.Sees c b i state (.assign a)) {e : Expr}
    (he : e ∈ a.targets) : e.var? = none := by
  have := List.filterMap_eq_nil_iff.1 hs.writtenVars e he
  cases e <;> first | rfl | simp [Expr.cellOf?, Expr.cell?] at this

theorem Sees.execute (hs : ds.Sees c b i state s) (hc : ds.Coherent c) (I : Valuation V)
    (h : ds.Tracks c state σ τ) :
    ds.Tracks c (ds.transfer b i s state) (s.execute I σ)
      ((s.bindSlots (ds.read c state) (ds.writtenAt c b i)).execute I τ) := by
  cases s with
  | assign a =>
    simp only [Stmt.execute, Stmt.bindSlots, hs.see_values h]
    refine Tracks.assignAll hc (ds.read c state) _ 0 h (fun e => hs.var?_target) fun n x hn => ?_
    exact hs.numbered n x (mem_slotTargets.2 ⟨a, rfl, List.mem_zipIdx_iff_getElem?.1 hn⟩)
  | call f as l => exact h
  | ret vs l => exact h
  | declare vs => exact h

theorem Sees.slotFree (hs : ds.Sees c b i state s) :
    (s.bindSlots (ds.read c state) (ds.writtenAt c b i)).readSlots = [] ∧
      (s.bindSlots (ds.read c state) (ds.writtenAt c b i)).writtenSlots = [] := by
  refine ⟨?_, ?_⟩
  · rw [Stmt.readSlots, Stmt.reads, Stmt.operands_bindSlots]
    exact hs.bound.slotFree
  · cases s with
    | assign a =>
      refine List.filterMap_eq_nil_iff.2 fun e he => ?_
      obtain ⟨⟨e', n⟩, hn, rfl⟩ := List.mem_map.1 he
      cases e' with
      | slot x =>
        obtain ⟨d, hd, hx⟩ := hs.numbered n x
          (mem_slotTargets.2 ⟨a, rfl, List.mem_zipIdx_iff_getElem?.1 hn⟩)
        obtain ⟨v, hv⟩ := exists_localOf? (c := c) (lt_size_of_slot? hx)
        simp [Stmt.bindTarget, writtenAt, hd, hv, Expr.cellOf?, Expr.cell?]
      | _ => simp [Stmt.bindTarget, Expr.cellOf?, Expr.cell?]
    | call => rfl
    | ret => rfl
    | declare => rfl

inductive Rewrites (ds : Definitions) (c : Partition) : NatSet → List Stmt → List Stmt → NatSet → Prop
  | nil {state last : NatSet} (hsub : ∀ d ∈ state, d ∈ last) : Rewrites ds c state [] [] last
  | cons {state state' last : NatSet} {b : BlockId} {i : Nat} {s : Stmt} {ss us : List Stmt}
      (hsub : ∀ d ∈ state, d ∈ state') (hs : ds.Sees c b i state' s)
      (h : Rewrites ds c (ds.transfer b i s state') ss us last) :
      Rewrites ds c state (s :: ss) (s.bindSlots (ds.read c state') (ds.writtenAt c b i) :: us) last

variable {ss us : List Stmt} {last : NatSet}

theorem Rewrites.along (h : ds.Rewrites c state ss us last) (hc : ds.Coherent c) (I : Valuation V)
    (ht : ds.Tracks c state σ τ) : (Stmt.along I us τ).1 = (Stmt.along I ss σ).1 ∧
      ds.Tracks c last (Stmt.along I ss σ).2 (Stmt.along I us τ).2 := by
  induction h generalizing σ τ with
  | nil hsub => exact ⟨rfl, ht.mono hsub⟩
  | cons hsub hs _ ih =>
    have ht' := ht.mono hsub
    obtain ⟨h₁, h₂⟩ := ih (hs.execute hc I ht')
    simp only [Stmt.along]
    exact ⟨by rw [h₁, Stmt.operands_bindSlots, ht'.see hs.bound], h₂⟩

theorem Rewrites.of_alongFrom (stateAt : Nat → NatSet) (ss : List Stmt) (i : Nat)
    (hat : ∀ j state', (ds.alongFrom b i state ss)[j]? = some state' → stateAt (i + j) = state')
    (hs : ∀ j s, ss[j]? = some s → ds.Sees c b (i + j) (stateAt (i + j)) s) :
    ds.Rewrites c state ss ((ss.zipIdx i).map fun (s, j) =>
        s.bindSlots (ds.read c (stateAt j)) (ds.writtenAt c b j))
      ((ss.zipIdx i).foldl (fun s (t, j) => ds.transfer b j t s) state) := by
  induction ss generalizing i state with
  | nil => exact .nil fun d hd => hd
  | cons s ss ih =>
    obtain rfl : stateAt i = state := hat 0 state rfl
    rw [List.zipIdx_cons, List.map_cons, List.foldl_cons]
    refine .cons (fun d hd => hd) (hs 0 s rfl) (ih (i + 1) ?_ ?_)
    · intro j state' hj
      rw [Nat.add_assoc, Nat.add_comm 1 j]
      exact hat (j + 1) state' hj
    · intro j s' hj
      rw [Nat.add_assoc, Nat.add_comm 1 j]
      exact hs (j + 1) s' hj

section Block

variable {p : Proto} {r : Reaching} {l : Liveness}

structure Resolved (ds : Definitions) (p : Proto) (r : Reaching) (c : Partition) : Prop where
  coherent : ds.Coherent c
  settled : ds.Settled p (.of p) r
  bound : ∀ b ∈ (Flow.of p).order, ∀ x defs, (x, defs) ∈ ds.readsIn p r b →
    defs ≠ [] ∧ ∀ d ∈ defs, ∀ e ∈ defs, c.Same d e

theorem resolved_webs (h : ds.Settled p (.of p) r) (hd : ds.undefinedRead? p (.of p) r = none) :
    ds.Resolved p r (ds.webs p (.of p) r l) := by
  refine ⟨coherent_webs, h, fun b hb x defs hx => ⟨?_, fun d hd e he => same_of_readsIn hb hx hd he⟩⟩
  have := List.findSome?_eq_none_iff.1 hd b hb
  rw [Option.map_eq_none_iff, List.find?_eq_none] at this
  simpa using this (x, defs) hx

theorem Resolved.bound_of_slotReads (h : ds.Resolved p r c) {block : Block} (hb : b ∈ (Flow.of p).order)
    (hblock : p.blocks[b]? = some block) {reads : List Slot} (hs : (ds.states p r b)[i]? = some state)
    (hr : block.slotReads[i]? = some reads) {x : Slot} (hx : x ∈ reads) : ds.Bound c state x := by
  exact h.bound b hb x _ ((mem_readsIn_iff hblock).2 ⟨i, state, reads, hs, hr, hx, rfl⟩)

variable {block : Block}

theorem Resolved.sees (h : (Definitions.of p (.of p)).Resolved p r c) (hv : p.VarFree)
    (hb : b ∈ (Flow.of p).order) (hblock : p.blocks[b]? = some block)
    (hs : block.body[i]? = some s) (hstate : ((Definitions.of p (.of p)).states p r b)[i]? = some state) :
    (Definitions.of p (.of p)).Sees c b i state s := by
  obtain ⟨hreads, hwrites⟩ := hv.statement (List.mem_of_getElem? hblock) (List.mem_of_getElem? hs)
  have hi : i < block.body.length := (List.getElem?_eq_some_iff.1 hs).1
  have hpoint : block.slotReads[i]? = some s.readSlots := by
    simp [Block.slotReads, List.getElem?_append_left, hi, (List.getElem?_eq_some_iff.1 hs).2]
  refine ⟨.of_reads hreads fun x hx => ?_, hwrites, fun n x hx => ?_⟩
  · exact h.bound_of_slotReads hb hblock hstate hpoint hx
  · refine number?_target hb ?_ hx
    simpa [Proto.body, hblock] using hs

theorem Resolved.allBound_jump (h : ds.Resolved p r c) (hv : p.VarFree) (hb : b ∈ (Flow.of p).order)
    (hblock : p.blocks[b]? = some block) (hstate : (ds.states p r b)[block.body.length]? = some state) :
    ds.AllBound c state block.jump.condition?.toList := by
  refine .of_reads ?_ fun x hx => ?_
  · exact (Jump.reads_eq .var block.jump).symm.trans (hv.jump (List.mem_of_getElem? hblock))
  · have hreads : block.slotReads[block.body.length]? = some (block.jump.reads .slot) := by
      simp [Block.slotReads]
    refine h.bound_of_slotReads hb hblock hstate hreads ?_
    rw [Jump.reads_eq]
    exact hx

theorem exists_state (hblock : p.blocks[b]? = some block) (hi : i ≤ block.body.length) :
    ∃ state, (ds.states p r b)[i]? = some state := by
  refine ⟨_, List.getElem?_eq_getElem ?_⟩
  have hbody : p.body b = block.body := Proto.body_of_getElem? hblock
  rw [states, length_alongFrom, hbody]
  omega

variable {q : Proto}

structure Rewritten (ds : Definitions) (p q : Proto) (r : Reaching) (c : Partition) (b : BlockId)
    (block : Block) : Prop where
  before : p.blocks[b]? = some block
  after : q.blocks[b]? = some (ds.bindBlock p c r b block)

namespace Rewritten

variable (h : ds.Rewritten p q r c b block)
include h

theorem body_before : p.body b = block.body := Proto.body_of_getElem? h.before

theorem jump_before : p.jump b = block.jump := Proto.jump_of_getElem? h.before

theorem body_after : q.body b = block.body.zipIdx.map fun (s, i) =>
    s.bindSlots (ds.read c ((ds.states p r b)[i]?.getD ∅)) (ds.writtenAt c b i) := by
  simp only [Proto.body, h.after]
  rfl

theorem jump_after (hs : (ds.states p r b)[block.body.length]? = some state) :
    q.jump b = block.jump.mapCondition (·.bindSlots (ds.read c state)) := by
  simp [Proto.jump, h.after, bindBlock, hs]

theorem targets_jump : (q.jump b).targets = (p.jump b).targets := by
  simp only [Proto.jump, h.before, h.after, bindBlock, Option.map_some, Option.getD_some]
  cases block.jump <;> rfl

theorem states_along {j : Nat} (hj : (ds.alongFrom b 0 (r.atEntry b) block.body)[j]? = some state) :
    (ds.states p r b)[0 + j]?.getD ∅ = state := by
  rw [← h.body_before] at hj
  unfold states
  rw [Nat.zero_add, hj]
  rfl

end Rewritten

section

variable (h : (Definitions.of p (.of p)).Resolved p r c) (hq : (Definitions.of p (.of p)).Rewritten p q r c b block)
include h hq

theorem Resolved.sees_along (hv : p.VarFree) (hb : b ∈ (Flow.of p).order) {j : Nat}
    (hj : block.body[j]? = some s) : (Definitions.of p (.of p)).Sees c b (0 + j)
      (((Definitions.of p (.of p)).states p r b)[0 + j]?.getD ∅) s := by
  obtain ⟨state, hstate⟩ := @exists_state (.of p (.of p)) b _ p r block hq.before
    (Nat.le_of_lt (List.getElem?_eq_some_iff.1 hj).1)
  rw [Nat.zero_add, hstate]
  exact h.sees hv hb hq.before hj hstate

theorem Resolved.rewrites_body (hv : p.VarFree) (hb : b ∈ (Flow.of p).order) :
    (Definitions.of p (.of p)).Rewrites c (r.atEntry b) (p.body b) (q.body b) (r.atExit b) := by
  rw [h.settled.exit b hb, hq.body_before, hq.body_after]
  apply Rewrites.of_alongFrom (fun i => ((Definitions.of p (.of p)).states p r b)[i]?.getD ∅)
  · intro j state hj
    exact hq.states_along hj
  · intro j s hj
    exact h.sees_along hq hv hb hj

theorem Resolved.visit (hv : p.VarFree) (hb : b ∈ (Flow.of p).order) (I : Valuation V)
    (ht : (Definitions.of p (.of p)).Tracks c (r.atEntry b) σ τ) :
    (q.visit I b τ).1 = (p.visit I b σ).1 ∧
      (Definitions.of p (.of p)).Tracks c (r.atExit b) (p.visit I b σ).2 (q.visit I b τ).2 := by
  have hexit : ((Definitions.of p (.of p)).states p r b)[block.body.length]? = some (r.atExit b) := by
    rw [h.settled.exit b hb, hq.body_before]
    unfold states
    rw [hq.body_before]
    exact getElem?_alongFrom_length
  obtain ⟨hseen, htracks⟩ := (h.rewrites_body hq hv hb).along h.coherent I ht
  refine ⟨?_, htracks⟩
  simp only [Proto.visit, hq.jump_before, hq.jump_after hexit, Jump.condition?_mapCondition,
    Option.toList_map]
  rw [hseen, htracks.see (h.allBound_jump hv hb hq.before hexit)]

theorem Resolved.slotFree (hv : p.VarFree) (hb : b ∈ (Flow.of p).order) : q.SlotFree b := by
  refine ⟨fun s hs => ?_, ?_⟩
  · rw [hq.body_after] at hs
    obtain ⟨⟨s, i⟩, hmem, rfl⟩ := List.mem_map.1 hs
    have hsees := h.sees_along hq hv hb (List.mem_zipIdx_iff_getElem?.1 hmem)
    rw [Nat.zero_add] at hsees
    exact hsees.slotFree
  · obtain ⟨state, hstate⟩ := @exists_state (.of p (.of p)) b _ p r block hq.before (Nat.le_refl _)
    rw [hq.jump_after hstate, Jump.reads_eq, Jump.condition?_mapCondition, Option.toList_map]
    exact (h.allBound_jump hv hb hq.before hstate).slotFree

end

theorem Resolved.seenAlong (h : (Definitions.of p (.of p)).Resolved p r c) (hp : p.WellShaped)
    (hv : p.VarFree) (hq : ∀ b ∈ (Flow.of p).order, ∃ block, (Definitions.of p (.of p)).Rewritten p q r c b block)
    (I : Valuation V) {path : List BlockId} (hb : ∀ b ∈ path.head?, b ∈ (Flow.of p).order)
    (hchain : path.IsChain fun a b => b ∈ (p.jump a).targets)
    (ht : ∀ b ∈ path.head?, (Definitions.of p (.of p)).Tracks c (r.atEntry b) σ τ) :
    q.seenAlong I path τ = p.seenAlong I path σ := by
  induction path generalizing σ τ with
  | nil => rfl
  | cons a path ih =>
    have ha := hb a rfl
    obtain ⟨block, hblock⟩ := hq a ha
    obtain ⟨hseen, htracks⟩ := h.visit hblock hv ha I (ht a rfl)
    have hra := Flow.mem_order.1 ha
    have next {b : BlockId} (hpath : b ∈ path.head?) : b ∈ (p.jump a).targets :=
      (List.isChain_cons.1 hchain).1 b hpath
    simp only [Proto.seenAlong, hseen]
    rw [ih (fun b hpath => ?_) hchain.tail fun b hpath => ?_]
    · exact Flow.mem_order.2 (hp.isReachable_target hra (next hpath))
    · exact htracks.mono fun d hd => h.settled.edge hp hra (next hpath) hd

end Block

theorem tracks_start {p : Proto} (hc : (Definitions.of p (.of p)).Coherent c)
    (hstate : ∀ d ∈ (Definitions.of p (.of p)).parameters, d ∈ state) (args : Slot → V) :
    (Definitions.of p (.of p)).Tracks c state (.ofSlots p.parameters args)
      (.ofLocals ((Definitions.of p (.of p)).locals p c) args) := by
  intro x
  by_cases hx : x < p.parameters
  · have hslot := slot?_parameter (p := p) (f := .of p) hx
    obtain ⟨v, hv⟩ := exists_localOf? (c := c) (lt_size_of_slot? hslot)
    obtain ⟨n, hl⟩ := get?_locals (p := p) hc hslot hv
    refine .inl ⟨x, v, hstate x ?_, hslot, hv, ?_⟩
    · simpa [parameters, isParameter_iff, hx] using lt_size_of_slot? hslot
    · have hkind := (@kind_localOfRoot (.of p (.of p)) p (c.root x) x n).2
        (isParameter_iff.2 (Nat.lt_of_le_of_lt (c.root_le x) hx))
      simp [Store.ofLocals, Store.ofSlots, hl, hkind, hx]
  · refine .inr ⟨by simp [Store.ofSlots, hx], fun d v hslot hv => ?_⟩
    obtain ⟨n, hl⟩ := get?_locals (p := p) hc hslot hv
    have hkind : ¬((Definitions.of p (.of p)).localOfRoot p (c.root d) x n).kind = .parameter := by
      rw [kind_localOfRoot, isParameter_iff]
      intro hroot
      have := hc.slot d
      rw [slot?_parameter hroot, hslot] at this
      exact hx (Option.some.inj this ▸ hroot)
    simp [Store.ofLocals, hl, hkind]

end Definitions

namespace Proto

open Definitions

variable {p q : Proto} {t : Locals} {rounds : Nat}

theorem resolve_eq_ok (h : p.resolve rounds = .ok (q, t)) : ∃ l r,
    (Definitions.of p (.of p)).reaching p (.of p) rounds = .ok r ∧
    (Definitions.of p (.of p)).undefinedRead? p (.of p) r = none ∧
    q.blocks = p.blocks.zipIdx.map (fun (block, b) => if (Flow.of p).isReachable b then
      (Definitions.of p (.of p)).bindBlock p ((Definitions.of p (.of p)).webs p (.of p) r l) r b block
      else block) ∧
    t = (Definitions.of p (.of p)).locals p ((Definitions.of p (.of p)).webs p (.of p) r l) := by
  unfold resolve at h
  simp only at h
  cases hl : Liveness.solve .slot p rounds with
  | error e => rw [hl] at h; cases h
  | ok l =>
    cases hr : (Definitions.of p (.of p)).reaching p (.of p) rounds with
    | error e => rw [hl, hr] at h; cases h
    | ok r =>
      rw [hl, hr] at h
      simp only [Except.bind, bind] at h
      split at h
      · cases h
      · next hd =>
        cases h
        exact ⟨l, r, rfl, hd, rfl, rfl⟩

theorem rewritten_of_blocks (hp : p.WellShaped) {r : Reaching} {c : Partition}
    (hblocks : q.blocks = p.blocks.zipIdx.map fun (block, b) =>
      if (Flow.of p).isReachable b then (Definitions.of p (.of p)).bindBlock p c r b block else block) :
    ∀ b ∈ (Flow.of p).order, ∃ block, (Definitions.of p (.of p)).Rewritten p q r c b block := by
  intro b hb
  have hrb := Flow.mem_order.1 hb
  refine ⟨_, List.getElem?_eq_getElem (hp.lt_of_isReachable hrb), ?_⟩
  rw [hblocks]
  simp [List.getElem?_eq_getElem (hp.lt_of_isReachable hrb), hrb]

theorem resolved_of_resolve (hp : p.WellShaped) (hr : p.resolve rounds = .ok (q, t)) : ∃ r c,
    (Definitions.of p (.of p)).Resolved p r c ∧ t = (Definitions.of p (.of p)).locals p c ∧
      ∀ b ∈ (Flow.of p).order, ∃ block, (Definitions.of p (.of p)).Rewritten p q r c b block := by
  obtain ⟨l, r, hreach, hdefined, hblocks, ht⟩ := resolve_eq_ok hr
  exact ⟨r, _, resolved_webs (l := l) (settled_of_reaching hp hreach) hdefined, ht, rewritten_of_blocks hp hblocks⟩

theorem IsPath.head_mem_order {path : List BlockId} (h : p.IsPath path) (hp : p.WellShaped) {b : BlockId}
    (hb : b ∈ path.head?) : b ∈ (Flow.of p).order := by
  rw [h.entry b hb]
  exact Flow.mem_order.2 hp.isReachable_zero

/-- Resolution keeps what every read sees along every path, undefined reads included, and it leaves no
slot and the same edges. -/
theorem resolve_sameReads (hp : p.violation? = none) (hv : p.VarFree) (hr : p.resolve rounds = .ok (q, t))
    (I : Valuation V) (args : Slot → V) {path : List BlockId} (hpath : p.IsPath path) :
    q.seenAlong I path (.ofLocals t args) = p.seenAlong I path (.ofSlots p.parameters args) ∧
      ∀ b, (Flow.of p).isReachable b = true → q.SlotFree b ∧ (q.jump b).targets = (p.jump b).targets := by
  have hshape := wellShaped_of_violation hp
  obtain ⟨r, c, h, rfl, hq⟩ := resolved_of_resolve hshape hr
  refine ⟨h.seenAlong hshape hv hq I (fun b => hpath.head_mem_order hshape) hpath.chain fun b hb => ?_,
    fun b hb => ?_⟩
  · rw [hpath.entry b hb]
    exact tracks_start h.coherent (fun d => h.settled.parameters hshape) args
  · obtain ⟨block, hblock⟩ := hq b (Flow.mem_order.2 hb)
    exact ⟨h.slotFree hblock hv (Flow.mem_order.2 hb), hblock.targets_jump⟩

def halfDefined : Proto :=
  { id := 0, parameters := 1
    blocks := [
      ⟨0, 0, 0, [], .branch (.slot 0) 1 2⟩,
      ⟨1, 1, 1, [.assign ⟨[.slot 1, .slot 0], [.slot 0, .global "g"], false, 0⟩], .always 2⟩,
      ⟨2, 2, 2, [.call (.slot 0) [.closure 0 [.slot 1]] 0, .ret [] 0], .leave⟩] }

theorem resolve_sameReads_halfDefined : ∃ q t, halfDefined.resolve 4 = .ok (q, t) ∧
    q.seenAlong (fun _ n => n + 1) [0, 2] (.ofLocals t fun _ => 0) =
      halfDefined.seenAlong (fun _ n => n + 1) [0, 2] (.ofSlots 1 fun _ => 0) := by
  have hok : (halfDefined.resolve 4).isOk = true := by cbv
  cases h : halfDefined.resolve 4 with
  | error e => simp [h, Except.isOk, Except.toBool] at hok
  | ok r =>
    obtain ⟨q, t⟩ := r
    refine ⟨q, t, rfl, (resolve_sameReads (by cbv) (by cbv) h _ _ ⟨?_, ?_⟩).1⟩
    · simp
    · simp [halfDefined, jump, Jump.targets]

end Proto

end LuaLift
