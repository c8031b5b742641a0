import LuaLift.Proofs.Proto.Shape
import LuaLift.Proofs.Slots.Sweeps
import LuaLift.Slots.Definitions

namespace LuaLift

theorem idxOf?_getElem {l : List Nat} (h : l.Nodup) {i : Nat} (hi : i < l.length) : l.idxOf? l[i] = some i := by
  rw [List.idxOf?_eq_some_iff]
  refine ⟨hi, rfl, fun j hj he => ?_⟩
  exact Nat.ne_of_lt hj ((h.getElem_inj_iff).1 he)

namespace Definitions

variable {ds : Definitions} {p : Proto} {f : Flow}

theorem mem_slotTargets {s : Stmt} {i : Nat} {x : Slot} : (i, x) ∈ s.slotTargets ↔
    ∃ a, s = .assign a ∧ a.targets[i]? = some (.slot x) := by
  cases s with
  | assign a =>
    simp only [Stmt.slotTargets, List.mem_filterMap, Stmt.assign.injEq, exists_eq_left']
    constructor
    · rintro ⟨⟨e, j⟩, he, hx⟩
      obtain ⟨y, hy, hyx⟩ := Option.map_eq_some_iff.1 hx
      cases hyx
      have := List.mem_zipIdx_iff_getElem?.1 he
      cases e <;> cases hy
      exact this
    · intro h
      exact ⟨(.slot x, i), List.mem_zipIdx_iff_getElem?.2 h, rfl⟩
  | call => simp [Stmt.slotTargets]
  | ret => simp [Stmt.slotTargets]
  | declare => simp [Stmt.slotTargets]

theorem eq_of_mem_slotTargets {s : Stmt} {n : Nat} {x y : Slot} (hx : (n, x) ∈ s.slotTargets)
    (hy : (n, y) ∈ s.slotTargets) : x = y := by
  obtain ⟨a, rfl, hax⟩ := mem_slotTargets.1 hx
  obtain ⟨a', ha', hay⟩ := mem_slotTargets.1 hy
  cases ha'
  rw [hax] at hay
  simpa using hay

theorem mem_ofBlock {b : BlockId} {d : Definition} : d ∈ ofBlock p b ↔
    ∃ (i : Nat) (s : Stmt) (position : Nat), (p.body b)[i]? = some s ∧ (position, d.slot) ∈ s.slotTargets ∧
      d.site = .target b i position := by
  simp only [ofBlock, List.mem_flatMap, List.mem_map]
  constructor
  · rintro ⟨⟨s, i⟩, hs, ⟨position, x⟩, hx, rfl⟩
    exact ⟨i, s, position, List.mem_zipIdx_iff_getElem?.1 hs, hx, rfl⟩
  · rintro ⟨i, s, position, hs, hx, hd⟩
    refine ⟨(s, i), List.mem_zipIdx_iff_getElem?.2 hs, (position, d.slot), hx, ?_⟩
    cases d
    cases hd
    rfl

theorem mem_of {d : Definition} : d ∈ (of p f).list ↔
    (∃ s < p.parameters, d = ⟨.parameter s, s⟩) ∨ ∃ b ∈ f.order, d ∈ ofBlock p b := by
  simp [of, List.mem_append, eq_comm]

theorem number?_eq_some {site : Site} {d : Nat} (h : ds.number? site = some d) :
    ∃ x, ds.list[d]? = some ⟨site, x⟩ := by
  obtain ⟨hd, hs, -⟩ := List.findIdx?_eq_some_iff_getElem.1 h
  refine ⟨ds.list[d].slot, ?_⟩
  rw [List.getElem?_eq_getElem hd]
  simp only [decide_eq_true_eq] at hs
  rw [← hs]

theorem exists_number? {d : Definition} (h : d ∈ ds.list) : ∃ n, ds.number? d.site = some n := by
  cases hn : ds.number? d.site with
  | some n => exact ⟨n, rfl⟩
  | none =>
    have := List.findIdx?_eq_none_iff.1 hn d h
    simp at this

theorem number?_target {b : BlockId} {i position : Nat} {s : Stmt} {x : Slot} (hb : b ∈ f.order)
    (hs : (p.body b)[i]? = some s) (hx : (position, x) ∈ s.slotTargets) :
    ∃ d, (of p f).number? (.target b i position) = some d ∧ (of p f).slot? d = some x := by
  have hmem : (⟨.target b i position, x⟩ : Definition) ∈ (of p f).list :=
    mem_of.2 (.inr ⟨b, hb, mem_ofBlock.2 ⟨i, s, position, hs, hx, rfl⟩⟩)
  obtain ⟨d, hd⟩ := exists_number? hmem
  refine ⟨d, hd, ?_⟩
  obtain ⟨y, hy⟩ := number?_eq_some hd
  have hyx : y = x := by
    rcases mem_of.1 (List.mem_of_getElem? hy) with ⟨_, _, he⟩ | ⟨c, -, he⟩
    · simp at he
    · obtain ⟨j, u, k, hu, hk, he⟩ := mem_ofBlock.1 he
      simp only [Site.target.injEq] at he
      obtain ⟨rfl, rfl, rfl⟩ := he
      rw [hs] at hu
      cases hu
      exact eq_of_mem_slotTargets hk hx
  rw [slot?, hy, ← hyx]
  rfl

theorem getElem?_parameter {s : Nat} (hs : s < p.parameters) :
    (of p f).list[s]? = some ⟨.parameter s, s⟩ := by
  rw [of, List.getElem?_append_left (by simpa using hs)]
  simp [hs]

theorem isParameter_iff {d : Nat} : (of p f).isParameter d = true ↔ d < p.parameters := by
  refine ⟨fun h => Nat.lt_of_not_le fun hle => ?_, fun h => ?_⟩
  · unfold isParameter of at h
    rw [List.getElem?_append_right (by simpa using hle), List.length_map, List.length_range] at h
    cases hd : (f.order.flatMap (ofBlock p))[d - p.parameters]? with
    | none => simp [hd] at h
    | some e =>
      obtain ⟨b, -, hb⟩ := List.mem_flatMap.1 (List.mem_of_getElem? hd)
      obtain ⟨i, s, position, -, -, hsite⟩ := mem_ofBlock.1 hb
      simp [hd, hsite, Site.isParameter] at h
  · simp [isParameter, getElem?_parameter h, Site.isParameter]

theorem slot?_parameter {s : Nat} (hs : s < p.parameters) : (of p f).slot? s = some s := by
  simp [slot?, getElem?_parameter hs]

theorem lt_size_of_slot? {d : Nat} {x : Slot} (h : ds.slot? d = some x) : d < ds.size := by
  unfold slot? at h
  rw [Option.map_eq_some_iff] at h
  obtain ⟨e, he, -⟩ := h
  exact (List.getElem?_eq_some_iff.1 he).1

theorem exists_slot? {d : Nat} (h : d < ds.size) : ∃ x, ds.slot? d = some x :=
  ⟨_, by simp [slot?, List.getElem?_eq_getElem (show d < ds.list.length from h)]; rfl⟩

theorem mem_ofSlot {state : NatSet} {x : Slot} {d : Nat} :
    d ∈ ds.ofSlot state x ↔ d ∈ state ∧ ds.slot? d = some x := by
  simp only [ofSlot]
  change d ∈ state.filter _ ↔ _
  simp

theorem mem_define {state : NatSet} {x : Slot} {d e : Nat} :
    e ∈ ds.define state x d ↔ e = d ∨ e ∈ state ∧ ds.slot? e ≠ some x := by
  simp [define]

section Statement

variable {b : BlockId} {i : Nat} {s : Stmt} {state : NatSet}

def defineAt (ds : Definitions) (b : BlockId) (i : Nat) (state : NatSet) (target : Nat × Slot) : NatSet :=
  match ds.number? (.target b i target.1) with
  | some d => ds.define state target.2 d
  | none => state

theorem mem_defineAt {target : Nat × Slot} {d e : Nat} (hd : ds.number? (.target b i target.1) = some d) :
    e ∈ ds.defineAt b i state target ↔ e = d ∨ e ∈ state ∧ ds.slot? e ≠ some target.2 := by
  rw [defineAt, hd]
  exact mem_define

def Numbers (ds : Definitions) (b : BlockId) (i : Nat) (targets : List (Nat × Slot)) : Prop :=
  ∀ n x, (n, x) ∈ targets → ∃ d, ds.number? (.target b i n) = some d ∧ ds.slot? d = some x

variable {targets : List (Nat × Slot)} {e : Nat}

theorem kept_by_foldl (h : ds.Numbers b i targets) (he : e ∈ state)
    (hkept : ∀ n x, (n, x) ∈ targets → ds.slot? e ≠ some x) : e ∈ targets.foldl (ds.defineAt b i) state := by
  induction targets generalizing state with
  | nil => exact he
  | cons t targets ih =>
    obtain ⟨d, hd, -⟩ := h t.1 t.2 (.head _)
    apply ih (fun n x hx => h n x (.tail _ hx)) _ fun n x hx => hkept n x (.tail _ hx)
    exact (mem_defineAt hd).2 (.inr ⟨he, hkept t.1 t.2 (.head _)⟩)

theorem defined_by_foldl (h : ds.Numbers b i targets) {n : Nat} {x : Slot} (hx : (n, x) ∈ targets) : ∃ m e,
    (m, x) ∈ targets ∧ ds.number? (.target b i m) = some e ∧ ds.slot? e = some x ∧
      e ∈ targets.foldl (ds.defineAt b i) state := by
  induction targets generalizing state n with
  | nil => cases hx
  | cons t targets ih =>
    have htail : ds.Numbers b i targets := fun n x hx => h n x (.tail _ hx)
    by_cases hagain : ∃ m, (m, x) ∈ targets
    · obtain ⟨m, hm⟩ := hagain
      obtain ⟨m, e, hm, he, hex, hmem⟩ := ih htail hm
      exact ⟨m, e, .tail _ hm, he, hex, hmem⟩
    -- The last target of a slot is the one whose definition is left.
    · obtain rfl : (n, x) = t := (List.mem_cons.1 hx).resolve_right fun hx => hagain ⟨n, hx⟩
      obtain ⟨d, hd, hdx⟩ := h n x (.head _)
      have hfirst : d ∈ ds.defineAt b i state (n, x) := (mem_defineAt hd).2 (.inl rfl)
      have hlast := kept_by_foldl htail hfirst fun m y hy hdy => by
        obtain rfl : y = x := Option.some.inj (hdy.symm.trans hdx)
        exact hagain ⟨m, hy⟩
      exact ⟨n, d, .head _, hd, hdx, hlast⟩

theorem mem_foldl (h : ds.Numbers b i targets) (he : e ∈ targets.foldl (ds.defineAt b i) state) :
    e ∈ state ∨ ∃ n x, (n, x) ∈ targets ∧ ds.slot? e = some x := by
  induction targets generalizing state with
  | nil => exact .inl he
  | cons t targets ih =>
    obtain ⟨d, hd, hdx⟩ := h t.1 t.2 (.head _)
    rcases ih (fun n x hx => h n x (.tail _ hx)) he with hmem | ⟨n, x, hx, hex⟩
    · rcases (mem_defineAt hd).1 hmem with rfl | ⟨hmem, -⟩
      · exact .inr ⟨t.1, t.2, .head _, hdx⟩
      · exact .inl hmem
    · exact .inr ⟨n, x, .tail _ hx, hex⟩

section Reachable

variable (hb : b ∈ f.order) (hs : (p.body b)[i]? = some s)
include hb hs

theorem numbers_slotTargets : (of p f).Numbers b i s.slotTargets := fun _ _ hx => number?_target hb hs hx

theorem mem_transfer (he : e ∈ (of p f).transfer b i s state) :
    e ∈ state ∨ ∃ n x, (n, x) ∈ s.slotTargets ∧ (of p f).slot? e = some x :=
  mem_foldl (numbers_slotTargets hb hs) he

theorem kept_by_transfer (he : e ∈ state) (hkept : ∀ n x, (n, x) ∈ s.slotTargets → (of p f).slot? e ≠ some x) :
    e ∈ (of p f).transfer b i s state :=
  kept_by_foldl (numbers_slotTargets hb hs) he hkept

theorem defined_by_transfer {n : Nat} {x : Slot} (hx : (n, x) ∈ s.slotTargets) : ∃ m e, (m, x) ∈ s.slotTargets ∧
    (of p f).number? (.target b i m) = some e ∧ (of p f).slot? e = some x ∧ e ∈ (of p f).transfer b i s state :=
  defined_by_foldl (numbers_slotTargets hb hs) hx

end Reachable

theorem mem_writtenSlots {x : Slot} : x ∈ s.writtenSlots ↔ ∃ n, (n, x) ∈ s.slotTargets := by
  cases s with
  | assign a =>
    have hcell (e : Expr) : e.cellOf? .slot = some x ↔ e = .slot x := by
      cases e <;> simp [Expr.cellOf?, Expr.cell?]
    simp only [Stmt.writtenSlots, Stmt.writes, List.mem_filterMap, hcell, mem_slotTargets, Stmt.assign.injEq,
      exists_eq_left', exists_eq_right]
    exact List.mem_iff_getElem?
  | call => simp [Stmt.writtenSlots, Stmt.writes, Stmt.slotTargets]
  | ret => simp [Stmt.writtenSlots, Stmt.writes, Stmt.slotTargets]
  | declare => simp [Stmt.writtenSlots, Stmt.writes, Stmt.slotTargets]

end Statement

section Run

variable {b : BlockId} {i : Nat} {state : NatSet} {ss : List Stmt}

theorem alongFrom_zero : (ds.alongFrom b i state ss)[0]? = some state := by
  cases ss <;> rfl

theorem alongFrom_succ {j : Nat} {s : Stmt} (hs : ss[j]? = some s) : ∃ before,
    (ds.alongFrom b i state ss)[j]? = some before ∧
      (ds.alongFrom b i state ss)[j + 1]? = some (ds.transfer b (i + j) s before) := by
  induction ss generalizing i j state with
  | nil => cases hs
  | cons t ss ih =>
    cases j with
    | zero =>
      cases hs
      exact ⟨state, rfl, alongFrom_zero⟩
    | succ j =>
      rw [show i + (j + 1) = i + 1 + j by omega]
      exact ih hs

theorem getElem?_alongFrom_length :
    (ds.alongFrom b i state ss)[ss.length]? =
      some ((ss.zipIdx i).foldl (fun s (t, j) => ds.transfer b j t s) state) := by
  induction ss generalizing i state with
  | nil => rfl
  | cons s ss ih => simpa [alongFrom] using ih

theorem length_alongFrom : (ds.alongFrom b i state ss).length = ss.length + 1 := by
  induction ss generalizing i state with
  | nil => rfl
  | cons s ss ih => simp [alongFrom, ih]

end Run

def Pointwise (g : NatSet → NatSet) : Prop :=
  ∀ ⦃s t : NatSet⦄ ⦃d : Nat⦄, (d ∈ s → d ∈ t) → d ∈ g s → d ∈ g t

theorem pointwise_foldl {α : Type} {g : NatSet → α → NatSet} (hg : ∀ a, Pointwise (g · a)) (l : List α) :
    Pointwise (l.foldl g) := by
  induction l with
  | nil => exact fun _ _ _ h => h
  | cons a l ih => exact fun s t d h => ih (hg a h)

theorem pointwise_transfer (b : BlockId) (i : Nat) (s : Stmt) : Pointwise (ds.transfer b i s) := by
  apply pointwise_foldl (g := ds.defineAt b i)
  intro target state state' e h he
  cases hn : ds.number? (.target b i target.1) with
  | none =>
    simp only [defineAt, hn] at he ⊢
    exact h he
  | some d =>
    rw [mem_defineAt hn] at he ⊢
    exact he.imp_right fun he => ⟨h he.1, he.2⟩

def through (ds : Definitions) (p : Proto) (b : BlockId) (s : NatSet) : NatSet :=
  (p.body b).zipIdx.foldl (fun s (t, i) => ds.transfer b i t s) s

theorem pointwise_through (b : BlockId) : Pointwise (ds.through p b) :=
  pointwise_foldl (g := fun s (e : Stmt × Nat) => ds.transfer b e.2 e.1 s)
    (fun e => pointwise_transfer b e.2 e.1) _

def equations (ds : Definitions) (p : Proto) (f : Flow) : FlowEquations where
  order := f.order
  sources := f.predecessors
  start := fun b => if b = 0 then ds.parameters else ∅
  through := ds.through p
  closed := fun _ _ _ hc => List.mem_of_mem_filter hc
  pointwise := fun h => pointwise_through _ h

def Reaching.Sized (n : Nat) (r : Reaching) : Prop := r.entry.length = n ∧ r.exit.length = n

theorem equations_solvedBy {n : Nat} (hn : ∀ b ∈ f.order, b < n) : (ds.equations p f).SolvedBy (Reaching.Sized n)
    (fun r b => (r.atEntry b, r.atExit b)) Prod.snd (fun b s => (s, ds.through p b s)) (ds.update p f) where
  sized_update := by
    intro r h b
    simpa [update, Reaching.Sized] using h
  row_self := by
    intro r h b hb
    exact Prod.ext (getD_set_self (Nat.lt_of_lt_of_eq (hn b hb) h.1.symm) _)
      (getD_set_self (Nat.lt_of_lt_of_eq (hn b hb) h.2.symm) _)
  row_other := fun r b c hc => Prod.ext (getD_set_other hc _) (getD_set_other hc _)
  passed_make := fun _ _ => rfl
  ext := by
    rintro ⟨entry, exit⟩ ⟨entry', exit'⟩ h h' hrows
    congr
    · exact rows_ext (h.1.trans h'.1.symm) fun b => congrArg Prod.fst (hrows b)
    · exact rows_ext (h.2.trans h'.2.symm) fun b => congrArg Prod.snd (hrows b)

theorem settle_eq (n : Nat) (r : Reaching) : ds.settle p f n r = settleBy (ds.sweep p f) n r := by
  induction n generalizing r with
  | zero => rfl
  | succ n ih =>
    unfold settle settleBy
    simp only [ih]

theorem exists_reaching (hp : p.WellShaped) (ds : Definitions) : ∃ r,
    (ds.equations p (.of p)).Solves r.atEntry r.atExit ∧
      (∀ rounds, p.blocks.length + 2 ≤ rounds → ds.reaching p (.of p) rounds = .ok r) ∧
      ∀ rounds q, ds.reaching p (.of p) rounds = .ok q → q = r := by
  have hn : ∀ b ∈ (Flow.of p).order, b < p.blocks.length :=
    fun b hb => hp.lt_of_isReachable (Flow.mem_order.1 hb)
  obtain ⟨r, hr, hsettles, hunique⟩ := (@equations_solvedBy ds p (.of p) _ hn).exists_settled
    (x := .empty p.blocks.length) (by simp [Reaching.Sized, Reaching.empty])
    fun b => getD_replicate _ b
  refine ⟨r, FlowEquations.solves_of_rows hr, fun rounds hrounds => ?_, fun rounds q hq => ?_⟩
  · have hlength := (Flow.of p).length_order_le.trans_eq Proto.size_flow
    have hsettled : settleBy (ds.sweep p (.of p)) rounds (.empty p.blocks.length) = some r :=
      hsettles rounds (Nat.le_trans (Nat.add_le_add_right hlength 2) hrounds)
    rw [reaching, settle_eq, hsettled]
  · rw [reaching, settle_eq] at hq
    split at hq
    · next hsettled =>
      cases hq
      exact hunique rounds _ hsettled
    · cases hq

structure Settled (ds : Definitions) (p : Proto) (f : Flow) (r : Reaching) : Prop where
  entry : ∀ b ∈ f.order, r.atEntry b =
    (f.predecessors b).foldl (fun s a => s ∪ r.atExit a) (if b = 0 then ds.parameters else ∅)
  exit : ∀ b ∈ f.order, r.atExit b =
    (p.body b).zipIdx.foldl (fun s (t, i) => ds.transfer b i t s) (r.atEntry b)

theorem settled_of_solves {r : Reaching} (h : (ds.equations p f).Solves r.atEntry r.atExit) :
    ds.Settled p f r := by
  constructor
  · intro b hb
    rw [h.gathered b hb]
    exact (ds.equations p f).gather_congr fun c hc => (h.passed c ((ds.equations p f).closed b hb c hc)).symm
  · intro b hb
    rw [h.gathered b hb, h.passed b hb]
    exact (ds.equations p f).solution_eq hb

theorem solves_of_reaching (hp : p.WellShaped) {rounds : Nat} {r : Reaching}
    (h : ds.reaching p (.of p) rounds = .ok r) :
    (ds.equations p (.of p)).Solves r.atEntry r.atExit := by
  obtain ⟨q, hq, -, hunique⟩ := exists_reaching hp ds
  rw [hunique rounds r h]
  exact hq

theorem settled_of_reaching (hp : p.WellShaped) {rounds : Nat} {r : Reaching}
    (h : ds.reaching p (.of p) rounds = .ok r) : ds.Settled p (.of p) r :=
  settled_of_solves (solves_of_reaching hp h)

namespace Settled

variable {r : Reaching} (h : ds.Settled p (.of p) r) (hp : p.WellShaped)
include h hp

theorem parameters {e : Nat} (he : e ∈ ds.parameters) : e ∈ r.atEntry 0 := by
  have h0 : 0 ∈ (Flow.of p).order := Flow.mem_order.2 hp.isReachable_zero
  rw [h.entry 0 h0, NatSet.mem_foldl_union]
  exact .inl he

theorem edge {a b : BlockId} (ha : (Flow.of p).isReachable a = true) (hb : b ∈ (p.jump a).targets)
    {e : Nat} (he : e ∈ r.atExit a) : e ∈ r.atEntry b := by
  have hbo : b ∈ (Flow.of p).order := Flow.mem_order.2 (hp.isReachable_target ha hb)
  rw [h.entry b hbo, NatSet.mem_foldl_union]
  exact .inr ⟨a, hp.mem_predecessors.2 ⟨ha, hb⟩, he⟩

end Settled

end Definitions

end LuaLift
