import LuaLift.Proofs.Proto.Points
import LuaLift.Proofs.Slots.Sweeps
import Mathlib.Data.List.Find

/-!
The check of reads stops at the first read that no path from the entry defines. It looks for writes in the
blocks from which a path leads to the read; sweeps over the slots that may be defined find the same.
-/

namespace LuaLift

open Relation

namespace Proto

variable {p : Proto} {a b : BlockId} {x : Slot}

section Ancestors

variable (hp : p.WellShaped)
include hp

theorem mem_ancestors_of_predecessors {c : BlockId} (hc : c ∈ ancestors (.of p) b)
    (ha : a ∈ (Flow.of p).predecessors c) : a ∈ ancestors (.of p) b := by
  obtain ⟨hra, hca⟩ := hp.mem_predecessors.1 ha
  have inside {d : BlockId} (hd : (Flow.of p).isReachable d = true) : d < (Flow.of p).size :=
    Nat.lt_of_lt_of_eq (hp.lt_of_isReachable hd) size_flow.symm
  obtain ⟨r, hr, hlt, hpath⟩ := Digraph.mem_walkIn.1 hc
  refine Digraph.mem_walkIn.2 ⟨r, hr, hlt, hpath.tail ⟨?_, List.mem_range.2 (inside hra)⟩⟩
  rw [Flow.succ_predecessorGraph (inside (hp.isReachable_target hra hca))]
  exact ha

theorem mem_ancestors : a ∈ ancestors (.of p) b ↔ (Flow.of p).isReachable a = true ∧
    ∃ c ∈ (p.jump a).targets, (Flow.of p).graph.Reaches c b := by
  constructor
  · intro ha
    obtain ⟨r, hr, -, hpath⟩ := Digraph.mem_walkIn.1 ha
    clear ha
    induction hpath with
    | refl =>
      obtain ⟨hra, hba⟩ := hp.mem_predecessors.1 hr
      exact ⟨hra, b, hba, .refl⟩
    | @tail y z _ hz ih =>
      obtain ⟨hrz, hyz⟩ := Flow.mem_predecessors_of_succ hz.1
      obtain ⟨-, c, hc, hreach⟩ := ih
      rw [hp.successors] at hyz
      rw [← hp.successors] at hc
      exact ⟨hrz, y, hyz, hreach.head hc⟩
  · rintro ⟨ha, c, hc, hreach⟩
    induction hreach using ReflTransGen.head_induction_on generalizing a with
    | refl =>
      have hpred : a ∈ (Flow.of p).predecessors b := hp.mem_predecessors.2 ⟨ha, hc⟩
      refine Digraph.mem_walkIn.2 ⟨a, hpred, List.mem_range.2 ?_, .refl⟩
      exact Nat.lt_of_lt_of_eq (hp.lt_of_isReachable ha) size_flow.symm
    | @head c d hd _ ih =>
      have hd : d ∈ (p.jump c).targets := by
        rw [← hp.successors]
        exact hd
      exact mem_ancestors_of_predecessors hp (ih (hp.isReachable_target ha hc) hd) (hp.mem_predecessors.2 ⟨ha, hc⟩)

theorem mayBeDefined_iff (hb : (Flow.of p).isReachable b = true) :
    p.mayBeDefined (ancestors (.of p) b) x = true ↔ p.DefinedAt x (b, 0) := by
  simp only [mayBeDefined, Bool.or_eq_true, decide_eq_true_eq, List.any_eq_true, List.contains_eq_mem]
  constructor
  · rintro (hx | ⟨a, ha, s, hs, hw⟩)
    · exact .inl ⟨hx, hp.flows_entry hb (Nat.zero_le _)⟩
    · obtain ⟨hra, c, hc, hreach⟩ := (mem_ancestors hp).1 ha
      obtain ⟨j, hj⟩ := List.mem_iff_getElem?.1 hs
      have hlt := (List.getElem?_eq_some_iff.1 hj).1
      refine .inr ⟨_, _, hp.flows_entry hra (Nat.le_of_lt hlt), .stmt hj hw, .stmt hlt, ?_⟩
      exact ((flows_body hlt (Nat.le_refl _)).tail (.jump rfl hc)).trans (hp.flows_of_reaches hreach)
  · rintro (⟨hx, -⟩ | ⟨⟨a, j⟩, t, ha, ⟨hs, hw⟩, hnext, hflows⟩)
    · exact .inl hx
    · refine .inr ⟨a, (mem_ancestors hp).2 ⟨hp.isReachable_of_flows ha, ?_⟩, _, List.mem_of_getElem? hs, hw⟩
      cases hnext with
      | stmt =>
        rcases hflows.stays_or_leaves with ⟨-, hle⟩ | ⟨c, hc, hpath⟩
        · exact absurd hle (Nat.not_succ_le_zero j)
        · exact ⟨c, hc, hp.reaches_of_flows hpath⟩
      | jump hend =>
        have := (List.getElem?_eq_some_iff.1 hs).1
        omega

end Ancestors

def readsFrom (b : BlockId) : Nat → List Stmt → List Slot → List (Point × Slot)
  | i, [], last => last.map ((b, i), ·)
  | i, s :: rest, last => s.readSlots.map ((b, i), ·) ++ readsFrom b (i + 1) rest last

def readsOf (p : Proto) (b : BlockId) : List (Point × Slot) :=
  readsFrom b 0 (p.body b) ((p.jump b).reads .slot)

def readsInOrder (p : Proto) : List (Point × Slot) := (Flow.of p).order.flatMap p.readsOf

theorem mem_readsFrom {i : Nat} {ss : List Stmt} {last : List Slot} {e : Point × Slot}
    (he : e ∈ readsFrom b i ss last) : e.1.1 = b ∧ e.1.2 ≤ i + ss.length := by
  induction ss generalizing i with
  | nil =>
    obtain ⟨x, -, rfl⟩ := List.mem_map.1 he
    exact ⟨rfl, Nat.le_refl i⟩
  | cons s ss ih =>
    rcases List.mem_append.1 he with he | he
    · obtain ⟨x, -, rfl⟩ := List.mem_map.1 he
      exact ⟨rfl, Nat.le_add_right i _⟩
    · rw [List.length_cons, ← Nat.succ_add_eq_add_succ]
      exact ih he

theorem firstUndefined?_eq {D : Nat → Slot → Bool} {i : Nat} {ss : List Stmt} {last : List Slot}
    {defined : Slot → Bool} (hstart : ∀ y, D i y = defined y)
    (hstep : ∀ j s, ss[j]? = some s → ∀ y, D (i + j + 1) y = (D (i + j) y || s.writtenSlots.contains y)) :
    firstUndefined? defined ss last = ((readsFrom b i ss last).find? fun e => !D e.1.2 e.2).map (·.2) := by
  induction ss generalizing i defined with
  | nil => simp [firstUndefined?, readsFrom, List.find?_map, Function.comp_def, hstart]
  | cons s ss ih =>
    have hnext : ∀ y, D (i + 1) y = (defined y || s.writtenSlots.contains y) := by
      intro y
      rw [← hstart]
      exact hstep 0 s rfl y
    have hrest := ih hnext fun j u hu y => by
      have := hstep (j + 1) u hu y
      rwa [show i + (j + 1) = i + 1 + j by omega] at this
    rw [firstUndefined?, readsFrom, List.find?_append, Option.map_or, hrest]
    simp [List.find?_map, Function.comp_def, hstart, Option.orElse_eq_or]

theorem findSome?_reads {P : Point × Slot → Bool} {first : BlockId → Option Slot} {bs : List BlockId}
    (h : ∀ b ∈ bs, first b = ((p.readsOf b).find? P).map (·.2)) :
    (bs.findSome? fun b => (first b).map (b, ·)) = ((bs.flatMap p.readsOf).find? P).map fun e => (e.1.1, e.2) := by
  induction bs with
  | nil => rfl
  | cons b bs ih =>
    rw [List.findSome?_cons, List.flatMap_cons, List.find?_append, h b (.head _), ih fun c hc => h c (.tail _ hc)]
    cases hfind : (p.readsOf b).find? P with
    | none => rfl
    | some e =>
      obtain ⟨rfl, -⟩ := mem_readsFrom (List.mem_of_find?_eq_some hfind)
      rfl

open Classical in
theorem findSome?_firstUndefined (hp : p.WellShaped) {defined : BlockId → Slot → Bool}
    (h : ∀ b, (Flow.of p).isReachable b = true → ∀ y, defined b y = true ↔ p.DefinedAt y (b, 0)) :
    ((Flow.of p).order.findSome? fun b =>
      (firstUndefined? (defined b) (p.body b) ((p.jump b).reads .slot)).map (b, ·)) =
      (p.readsInOrder.find? fun e => !decide (p.DefinedAt e.2 e.1)).map fun e => (e.1.1, e.2) := by
  apply findSome?_reads
  intro b hb
  have hrb := Flow.mem_order.1 hb
  rw [firstUndefined?_eq (D := fun i y => decide (p.DefinedAt y (b, i))) (b := b) (i := 0)]
  · congr 1
    apply List.find?_congr
    rintro ⟨⟨c, j⟩, y⟩ he
    obtain ⟨rfl, -⟩ := mem_readsFrom he
    rfl
  · intro y
    rw [Bool.eq_iff_iff, decide_eq_true_eq, h b hrb]
  · intro j s hs y
    have hj := (List.getElem?_eq_some_iff.1 hs).1
    rw [Nat.zero_add, Bool.eq_iff_iff, Bool.or_eq_true, decide_eq_true_eq, decide_eq_true_eq,
      definedAt_succ (hp.flows_entry hrb (Nat.le_of_lt hj)) hj, List.contains_eq_mem, decide_eq_true_eq]
    refine or_congr_right ⟨?_, fun hw => .stmt hs hw⟩
    rintro ⟨hs', hw⟩
    rw [hs] at hs'
    cases hs'
    exact hw

open Classical in
theorem undefinedSlot?_eq (hp : p.WellShaped) : p.undefinedSlot? (.of p) =
    (p.readsInOrder.find? fun e => !decide (p.DefinedAt e.2 e.1)).map fun e => (e.1.1, e.2) :=
  findSome?_firstUndefined hp fun _ hb _ => mayBeDefined_iff hp hb

section Sweeps

def definedBehind (p : Proto) (b : BlockId) (s : NatSet) : NatSet :=
  (p.body b).foldl (fun s t => s.insertAll t.writtenSlots) s

theorem mem_definedBehind {s : NatSet} :
    x ∈ p.definedBehind b s ↔ x ∈ s ∨ ∃ t ∈ p.body b, x ∈ t.writtenSlots := by
  unfold definedBehind
  generalize p.body b = ss
  induction ss generalizing s with
  | nil => simp
  | cons t ss ih =>
    rw [List.foldl_cons, ih, NatSet.mem_insertAll]
    simp [or_assoc]

def definedness (p : Proto) : FlowEquations where
  order := (Flow.of p).order
  sources := (Flow.of p).predecessors
  start := fun b => if b = 0 then .ofList (List.range p.parameters) else ∅
  through := p.definedBehind
  closed := fun _ _ _ hc => List.mem_of_mem_filter hc
  pointwise := fun h hd => mem_definedBehind.2 ((mem_definedBehind.1 hd).imp_left h)

def definedBefore (p : Proto) (rows : List NatSet) (b : BlockId) : NatSet :=
  p.definedness.gather (fun c => rows[c]?.getD ∅) b

def updateDefined (p : Proto) (rows : List NatSet) (b : BlockId) : List NatSet :=
  rows.set b (p.definedBehind b (p.definedBefore rows b))

def sweepDefined (p : Proto) (rows : List NatSet) : List NatSet := (Flow.of p).order.foldl p.updateDefined rows

def undefinedBy? (p : Proto) (rows : List NatSet) : Option (BlockId × Slot) :=
  (Flow.of p).order.findSome? fun b =>
    (firstUndefined? (fun y => decide (y ∈ p.definedBefore rows b)) (p.body b) ((p.jump b).reads .slot)).map (b, ·)

variable (hp : p.WellShaped)
include hp

theorem definedness_solvedBy : p.definedness.SolvedBy (fun rows : List NatSet => rows.length = p.blocks.length)
    (fun rows b => rows[b]?.getD ∅) (fun s => s) p.definedBehind p.updateDefined where
  sized_update := by
    intro rows h b
    rw [updateDefined, List.length_set, h]
  row_self := by
    intro rows h b hb
    have hlt := hp.lt_of_isReachable (Flow.mem_order.1 hb)
    exact getD_set_self (Nat.lt_of_lt_of_eq hlt h.symm) _
  row_other := fun rows b c hc => getD_set_other hc _
  passed_make := fun _ _ => rfl
  ext := fun h h' hrows => rows_ext (h.trans h'.symm) hrows

theorem definedAt_of_definedBefore {passed : BlockId → NatSet}
    (hpassed : ∀ c, (Flow.of p).isReachable c = true → x ∈ passed c → p.DefinedAt x (c, (p.body c).length))
    (h : x ∈ p.definedness.gather passed b) : p.DefinedAt x (b, 0) := by
  rcases p.definedness.mem_gather.1 h with hstart | ⟨c, hc, hx⟩
  · have hstart : x ∈ if b = 0 then NatSet.ofList (List.range p.parameters) else ∅ := hstart
    split at hstart
    · next hzero =>
      subst hzero
      exact .inl ⟨List.mem_range.1 (NatSet.mem_ofList.1 hstart), .refl⟩
    · exact absurd hstart NatSet.not_mem_empty
  · obtain ⟨hrc, hbc⟩ := hp.mem_predecessors.1 hc
    exact (hpassed c hrc hx).trans (.single (.jump rfl hbc))

theorem definedAt_of_definedBehind {j : Nat} (hb : (Flow.of p).isReachable b = true)
    (h : x ∈ p.definedness.after j b) : p.DefinedAt x (b, (p.body b).length) := by
  induction j generalizing b with
  | zero => exact absurd h NatSet.not_mem_empty
  | succ j ih =>
    rcases mem_definedBehind.1 h with hx | ⟨t, ht, hw⟩
    · exact (definedAt_of_definedBefore hp (fun c => ih) hx).trans (flows_body (Nat.zero_le _) (Nat.le_refl _))
    · obtain ⟨i, hi⟩ := List.mem_iff_getElem?.1 ht
      have hlt := (List.getElem?_eq_some_iff.1 hi).1
      have hdefined := definedAt_of_writes (hp.flows_entry hb (Nat.le_of_lt hlt)) (.stmt hi hw) (.stmt hlt)
      exact hdefined.trans (flows_body hlt (Nat.le_refl _))

theorem definedBefore_of_flows {q t : Point} (hentry : p.Flows (0, 0) q) (hpath : p.Flows q t)
    (hq : x ∈ p.definedness.gather p.definedness.solution q.1 ∨
      ∃ i < q.2, ∃ s, (p.body q.1)[i]? = some s ∧ x ∈ s.writtenSlots) :
    x ∈ p.definedness.gather p.definedness.solution t.1 ∨
      ∃ i < t.2, ∃ s, (p.body t.1)[i]? = some s ∧ x ∈ s.writtenSlots := by
  induction hpath with
  | refl => exact hq
  | tail hpath hnext ih =>
    have hreach := hp.isReachable_of_flows (hentry.trans hpath)
    cases hnext with
    | stmt => exact ih.imp_right fun ⟨i, hi, hw⟩ => ⟨i, Nat.lt_succ_of_lt hi, hw⟩
    | @jump b c _ _ hc =>
      refine .inl (p.definedness.mem_gather.2 (.inr ⟨b, hp.mem_predecessors.2 ⟨hreach, hc⟩, ?_⟩))
      rw [p.definedness.solution_eq (Flow.mem_order.2 hreach)]
      exact mem_definedBehind.2 (ih.imp_right fun ⟨_, _, s, hs, hw⟩ => ⟨s, List.mem_of_getElem? hs, hw⟩)

theorem mem_gather_definedness :
    x ∈ p.definedness.gather p.definedness.solution b ↔ p.DefinedAt x (b, 0) := by
  constructor
  · exact definedAt_of_definedBefore hp fun c => definedAt_of_definedBehind hp
  · intro h
    have hfound : x ∈ p.definedness.gather p.definedness.solution b ∨
        ∃ i < 0, ∃ s, (p.body b)[i]? = some s ∧ x ∈ s.writtenSlots := by
      rcases h with ⟨hx, hflows⟩ | ⟨_, _, hq, ⟨hs, hw⟩, hnext, hflows⟩
      · refine definedBefore_of_flows hp .refl hflows (.inl (p.definedness.mem_gather.2 (.inl ?_)))
        exact NatSet.mem_ofList.2 (List.mem_range.2 hx)
      · cases hnext with
        | stmt hi =>
          exact definedBefore_of_flows hp (hq.tail (.stmt hi)) hflows (.inr ⟨_, Nat.lt_succ_self _, _, hs, hw⟩)
        | jump hend =>
          have := (List.getElem?_eq_some_iff.1 hs).1
          omega
    exact hfound.resolve_right fun ⟨i, hi, _⟩ => Nat.not_lt_zero i hi

theorem exists_definedness : ∃ rows,
    (∀ n, p.blocks.length + 2 ≤ n → settleBy p.sweepDefined n (List.replicate p.blocks.length ∅) = some rows) ∧
      p.undefinedBy? rows = p.undefinedSlot? (.of p) := by
  obtain ⟨rows, hrows, hsettles, -⟩ := (definedness_solvedBy hp).exists_settled
    (x := List.replicate p.blocks.length ∅) List.length_replicate fun b => getD_replicate _ b
  refine ⟨rows, fun n hn => ?_, ?_⟩
  · apply hsettles
    have hlength := (Flow.of p).length_order_le.trans_eq size_flow
    exact Nat.le_trans (Nat.add_le_add_right hlength 2) hn
  · rw [undefinedSlot?_eq hp]
    apply findSome?_firstUndefined hp
    intro b hb y
    have hbefore : p.definedBefore rows b = p.definedness.gather p.definedness.solution b := by
      apply p.definedness.gather_congr
      intro c hc
      have hc := p.definedness.closed b (Flow.mem_order.2 hb) c hc
      exact (hrows c hc).trans (p.definedness.solution_eq hc).symm
    rw [decide_eq_true_eq, hbefore]
    exact mem_gather_definedness hp

end Sweeps

end Proto

end LuaLift
