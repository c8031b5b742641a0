import LuaLift.Proofs.Proto.AllDefined
import LuaLift.Proofs.Slots.Protection
import LuaLift.Proofs.Slots.Settling

namespace LuaLift

open Relation

def Block.readSlots (b : Block) : List Slot := b.body.flatMap Stmt.readSlots ++ b.jump.reads .slot

def Block.writtenSlots (b : Block) : List Slot := b.body.flatMap Stmt.writtenSlots

theorem count_flatMap_reads (s : Slot) (es : List Expr) :
    (es.flatMap (·.reads .slot)).count s = (es.flatMap Expr.cells).count ⟨.slot, s⟩ := by
  induction es with
  | nil => rfl
  | cons e es ih =>
    rw [List.flatMap_cons, List.flatMap_cons, List.count_append, List.count_append, ih, Expr.count_reads]

theorem Substituted.perm_reads {s : Slot} {x : Expr} {es es' : List Expr}
    (h : Substituted ⟨.slot, s⟩ (some x) (es.flatMap Expr.cells) (es'.flatMap Expr.cells) none) :
    (x.reads .slot ++ es.flatMap (·.reads .slot)).Perm (s :: es'.flatMap (·.reads .slot)) := by
  rw [List.perm_iff_count]
  intro k
  have hcount := h.count ⟨.slot, k⟩
  have hslot : [s].count k = [(⟨.slot, s⟩ : Cell)].count ⟨.slot, k⟩ := by
    simp [List.count_singleton]
  rw [List.count_append, Expr.count_reads, count_flatMap_reads, ← List.singleton_append, List.count_append, hslot,
    count_flatMap_reads]
  omega

theorem Stmt.perm_readSlots_take {dead : Slot → Bool} {s : Slot} {e : Expr} {t : Stmt}
    (h : t.accepts dead s e = true) (ht : Expr.plainCaptures t.operands = true) :
    (e.reads .slot ++ t.readSlots).Perm (s :: (t.take s e).readSlots) := by
  rw [accepts, Bool.and_eq_true] at h
  have hc := substituted ⟨.slot, s⟩ t (some e)
  rw [eq_none_of_canInline h.1 ht (offered s t (some e))] at hc
  exact hc.perm_reads

theorem Jump.perm_reads_take {out : NatSet} {s : Slot} {e : Expr} {j : Jump} (h : j.accepts out s e = true)
    (hj : Expr.plainCaptures j.condition?.toList = true) :
    (e.reads .slot ++ j.reads .slot).Perm (s :: (j.take s e).reads .slot) := by
  cases j with
  | branch c a b =>
    have hc := Expr.substitutedList ⟨.slot, s⟩ [c] (some e)
    rw [eq_none_of_canInline h hj (Expr.offeredList s [c] (some e))] at hc
    simpa [take, mapCondition, reads, condition?, Expr.substituteList] using hc.perm_reads
  | _ => simp [accepts, condition?, canInline, total] at h

theorem Stmt.readSlots_of_singleSlot? {w : Stmt} {s : Slot} {e : Expr} (hw : w.singleSlot? = some (s, e)) :
    w.readSlots = e.reads .slot := by
  rw [readSlots, reads, operands_of_singleSlot? hw, List.flatMap_singleton]

namespace Block

variable {guarded : Slot → Bool} {out : NatSet} {b c : Block}

theorem Merges.spends (h : Merges guarded out b c) (hb : b.plainCaptures = true) :
    ∃ s, b.writtenSlots.Perm (s :: c.writtenSlots) ∧ b.readSlots.Perm (s :: c.readSlots) ∧
      b.body.length = c.body.length + 1 := by
  rw [plainCaptures_iff] at hb
  cases h with
  | @stmt before rest w t s e hbody hw hs h =>
    refine ⟨s, ?_, ?_, by simp [hbody]; omega⟩
    · simp [writtenSlots, hbody, Stmt.writtenSlots_of_singleSlot? hw, Stmt.writtenSlots_take]
    · have hmerge := Stmt.perm_readSlots_take h (hb.1 t (by simp [hbody]))
      rw [← Stmt.readSlots_of_singleSlot? hw] at hmerge
      have := (hmerge.append_right (rest.flatMap Stmt.readSlots ++ b.jump.reads .slot)).append_left
        (before.flatMap Stmt.readSlots)
      simpa [readSlots, hbody] using this.trans List.perm_middle
  | @jump before w s e hbody hw hs h =>
    refine ⟨s, ?_, ?_, by simp [hbody]⟩
    · simp [writtenSlots, hbody, Stmt.writtenSlots_of_singleSlot? hw]
    · have hmerge := Jump.perm_reads_take h hb.2
      rw [← Stmt.readSlots_of_singleSlot? hw] at hmerge
      have := hmerge.append_left (before.flatMap Stmt.readSlots)
      simpa [readSlots, hbody] using this.trans List.perm_middle

theorem inline_spends (guarded : Slot → Bool) (out : NatSet) (hb : b.plainCaptures = true) :
    ∃ spent : List Slot, b.writtenSlots.Perm (spent ++ (b.inline guarded out).writtenSlots) ∧
      b.readSlots.Perm (spent ++ (b.inline guarded out).readSlots) ∧
        b.body.length = (b.inline guarded out).body.length + spent.length := by
  refine inline_keeps_plain (P := fun c => ∃ spent : List Slot, b.writtenSlots.Perm (spent ++ c.writtenSlots) ∧
    b.readSlots.Perm (spent ++ c.readSlots) ∧ b.body.length = c.body.length + spent.length) hb
    ⟨[], .refl _, .refl _, rfl⟩ ?_
  rintro c d h hc ⟨spent, hwrites, hreads, hlength⟩
  obtain ⟨s, hwrites', hreads', hlength'⟩ := h.spends hc
  refine ⟨s :: spent, ?_, ?_, ?_⟩
  · exact (hwrites.trans (hwrites'.append_left spent)).trans List.perm_middle
  · exact (hreads.trans (hreads'.append_left spent)).trans List.perm_middle
  · rw [hlength, hlength', List.length_cons]
    omega

end Block

theorem mem_writtenSlots_of_liveFrom {out : NatSet} {j : Jump} {rest : List Stmt} {s : Slot} (hs : s ∈ out)
    (hdead : s ∉ liveFrom out j rest) : ∃ t ∈ rest, s ∈ t.writtenSlots := by
  induction rest with
  | nil => exact absurd (mem_liveFrom_nil.2 (.inl hs)) hdead
  | cons t rest ih =>
    by_cases hw : s ∈ t.writtenSlots
    · exact ⟨t, .head _, hw⟩
    · obtain ⟨u, hu, hs⟩ := ih fun hlive => hdead (Stmt.mem_liveBefore.2 (.inr ⟨hw, hlive⟩))
      exact ⟨u, .tail _ hu, hs⟩

theorem mem_liveFrom_of_not_written {out : NatSet} {j : Jump} {rest : List Stmt} {s : Slot} (hs : s ∈ out)
    (hw : ¬∃ t ∈ rest, s ∈ t.writtenSlots) : s ∈ liveFrom out j rest :=
  Decidable.not_not.1 fun hdead => hw (mem_writtenSlots_of_liveFrom hs hdead)

theorem mem_liveFrom_empty_iff {j : Jump} {ss : List Stmt} {s : Slot} : s ∈ liveFrom ∅ j ss ↔
    ∃ i, ((∃ t, ss[i]? = some t ∧ s ∈ t.readSlots) ∨ i = ss.length ∧ s ∈ j.reads .slot) ∧
      ∀ k < i, ∀ t, ss[k]? = some t → s ∉ t.writtenSlots := by
  induction ss with
  | nil => simp [mem_liveFrom_nil]
  | cons t ss ih =>
    rw [liveFrom_cons, Stmt.mem_liveBefore, ih]
    constructor
    · rintro (hs | ⟨hw, i, hi, hbefore⟩)
      · exact ⟨0, .inl ⟨t, rfl, hs⟩, fun k hk => absurd hk (Nat.not_lt_zero k)⟩
      · refine ⟨i + 1, by simpa using hi, ?_⟩
        rintro (_ | k) hk u hu
        · cases hu
          exact hw
        · exact hbefore k (Nat.lt_of_succ_lt_succ hk) u hu
    · rintro ⟨_ | i, hi, hbefore⟩
      · exact .inl (by simpa [Stmt.readSlots] using hi)
      · right
        refine ⟨hbefore 0 (Nat.succ_pos i) t rfl, i, by simpa using hi, fun k hk u hu => ?_⟩
        exact hbefore (k + 1) (Nat.succ_lt_succ hk) u hu

namespace Block

variable {guarded : Slot → Bool} {out : NatSet} {b c : Block} {s : Slot}

theorem mem_writtenSlots : s ∈ b.writtenSlots ↔ ∃ t ∈ b.body, s ∈ t.writtenSlots := List.mem_flatMap

theorem Merges.mem_writtenSlots (h : Merges guarded out b c) (hs : s ∈ out) (hw : s ∈ b.writtenSlots) :
    s ∈ c.writtenSlots := by
  cases h with
  | @stmt before rest w t x e hbody hx hguarded h =>
    simp only [writtenSlots, hbody, List.flatMap_append, List.flatMap_cons, List.mem_append,
      Stmt.writtenSlots_of_singleSlot? hx, Stmt.writtenSlots_take, List.mem_singleton] at hw ⊢
    rcases hw with hw | rfl | hw
    · exact .inl hw
    · refine .inr ((Stmt.dead_of_accepts h).imp_right fun hdead => ?_)
      rw [deadAfter_eq, decide_eq_true_eq] at hdead
      exact List.mem_flatMap.2 (mem_writtenSlots_of_liveFrom hs hdead)
    · exact .inr hw
  | @jump before w x e hbody hx hguarded h =>
    simp only [writtenSlots, hbody, List.flatMap_append, List.flatMap_singleton, List.mem_append,
      Stmt.writtenSlots_of_singleSlot? hx, List.mem_singleton] at hw ⊢
    exact hw.resolve_right fun hsx => Jump.not_mem_of_accepts h (hsx ▸ hs)

theorem mem_writtenSlots_inline (hs : s ∈ out) (hw : s ∈ b.writtenSlots) :
    s ∈ (b.inline guarded out).writtenSlots :=
  inline_keeps (P := fun c => s ∈ c.writtenSlots) hw fun h ih => h.mem_writtenSlots hs ih

end Block

namespace Proto

variable {p q : Proto} {l : Liveness} {r : Protected} {rounds n : Nat} {b c : BlockId} {i : Nat} {s : Slot}

theorem mem_through_empty_iff : s ∈ Liveness.through .slot p b ∅ ↔
    ∃ i, p.Reads .slot s (b, i) ∧ ∀ k < i, ¬p.Writes .slot s (b, k) := by
  refine mem_liveFrom_empty_iff.trans (exists_congr fun i => and_congr reads_iff.symm ?_)
  refine forall₂_congr fun k _ => ⟨?_, fun h t ht hs => h (.stmt ht hs)⟩
  rintro h ⟨ht, hs⟩
  exact h _ ht hs

theorem definedAt_body (hb : p.Flows (0, 0) (b, 0)) (hi : i ≤ (p.body b).length) :
    p.DefinedAt s (b, i) ↔ p.DefinedAt s (b, 0) ∨ ∃ k < i, p.Writes .slot s (b, k) := by
  induction i with
  | zero => simp
  | succ i ih =>
    have hle := Nat.le_of_succ_le hi
    rw [definedAt_succ (hb.trans (flows_body (Nat.zero_le i) hle)) hi, ih hle, or_assoc]
    simp only [Nat.lt_succ_iff_lt_or_eq, or_and_right, exists_or, exists_eq_left]

theorem allDefined_iff_entry (hp : p.WellShaped) : p.AllDefined ↔
    ∀ b s, (Flow.of p).isReachable b = true → s ∈ Liveness.through .slot p b ∅ → p.DefinedAt s (b, 0) := by
  constructor
  · intro h b s hb hs
    obtain ⟨i, hread, hbefore⟩ := mem_through_empty_iff.1 hs
    have hentry := hp.flows_entry hb (Nat.zero_le _)
    have hdefined := h (b, i) s (hp.flows_entry hb hread.le_length) hread
    refine ((definedAt_body hentry hread.le_length).1 hdefined).resolve_right ?_
    rintro ⟨k, hk, hw⟩
    exact hbefore k hk hw
  · rintro h ⟨b, i⟩ s hflows hread
    have hb := hp.isReachable_of_flows hflows
    rw [definedAt_body (hp.flows_entry hb (Nat.zero_le _)) hread.le_length]
    by_cases hw : ∃ k < i, p.Writes .slot s (b, k)
    · exact .inr hw
    · refine .inl (h b s hb (mem_through_empty_iff.2 ⟨i, hread, ?_⟩))
      simpa using hw

def SetBefore (p : Proto) (s : Slot) (b c : BlockId) : Prop :=
  (Flow.of p).isReachable c = true ∧ (∃ t ∈ p.body c, s ∈ t.writtenSlots) ∧
    ∃ d ∈ (p.jump c).targets, (Flow.of p).graph.Reaches d b

theorem WellShaped.definedAt_entry (hp : p.WellShaped) (hb : (Flow.of p).isReachable b = true) :
    p.DefinedAt s (b, 0) ↔ s < p.parameters ∨ ∃ c, p.SetBefore s b c := by
  constructor
  · rintro (⟨hs, -⟩ | ⟨⟨c, i⟩, t, hc, hw, hnext, hflows⟩)
    · exact .inl hs
    · obtain ⟨hi, rfl⟩ := hw.next_eq hnext
      obtain ⟨ht, hs⟩ := hw
      refine .inr ⟨c, hp.isReachable_of_flows hc, ⟨_, List.mem_of_getElem? ht, hs⟩, ?_⟩
      rcases hflows.stays_or_leaves with ⟨-, hle⟩ | ⟨d, hd, hflows⟩
      · omega
      · exact ⟨d, hd, hp.reaches_of_flows hflows⟩
  · rintro (hs | ⟨c, hc, ⟨t, ht, hs⟩, d, hd, hreaches⟩)
    · exact .inl ⟨hs, hp.flows_entry hb (Nat.zero_le _)⟩
    · obtain ⟨i, hi⟩ := List.mem_iff_getElem?.1 ht
      have hlt := (List.getElem?_eq_some_iff.1 hi).1
      refine .inr ⟨(c, i), (c, i + 1), hp.flows_entry hc (Nat.le_of_lt hlt), .stmt hi hs, .stmt hlt, ?_⟩
      have hleaves := (flows_body hlt (Nat.le_refl _)).tail (.jump rfl hd)
      exact hleaves.trans (hp.flows_of_reaches hreaches)

section Live

variable (hp : p.WellShaped) (hl : (Liveness.equations .slot hp).Solves l.after l.before)
include hp hl

theorem WellShaped.live_or_set (hs : s ∈ l.before b) {d : BlockId} (hd : (Flow.of p).isReachable d = true)
    (h : (Flow.of p).graph.Reaches d b) : s ∈ l.before d ∨ ∃ c, p.SetBefore s b c ∧ s ∈ l.after c := by
  induction h using ReflTransGen.head_induction_on with
  | refl => exact .inl hs
  | @head d e hde heb ih =>
    have he : e ∈ (p.jump d).targets := by
      rw [← hp.successors]
      exact hde
    rcases ih (hp.isReachable_target hd he) with hlive | hset
    · have hafter : s ∈ l.after d := (Liveness.mem_after_iff hp hl hd).2 ⟨e, he, hlive⟩
      by_cases hw : ∃ t ∈ p.body d, s ∈ t.writtenSlots
      · exact .inr ⟨d, ⟨hd, hw, e, he, heb⟩, hafter⟩
      · left
        rw [Liveness.before_eq hp hl hd]
        exact mem_liveFrom_of_not_written hafter hw
    · exact .inr hset

theorem WellShaped.exists_live_set (hs : s ∈ l.before b) (h : p.SetBefore s b c) :
    ∃ c, p.SetBefore s b c ∧ s ∈ l.after c := by
  obtain ⟨hc, hw, d, hd, hdb⟩ := h
  rcases hp.live_or_set hl hs (hp.isReachable_target hc hd) hdb with hlive | hset
  · exact ⟨c, ⟨hc, hw, d, hd, hdb⟩, (Liveness.mem_after_iff hp hl hc).2 ⟨d, hd, hlive⟩⟩
  · exact hset

theorem WellShaped.allDefined_inline (hplain : ∀ b ∈ p.blocks, b.plainCaptures = true) (h : p.AllDefined) :
    (p.inline l r).1.AllDefined := by
  have hq : (p.inline l r).1.WellShaped := hp.inline
  rw [allDefined_iff_entry hq, flow_inline]
  intro b s hb hs
  obtain ⟨block, hblock, hinlined⟩ := getElem?_inline (l := l) (r := r) hp hb
  have hread : s ∈ Liveness.through .slot p b ∅ := by
    rw [through_eq hinlined, Block.liveFrom_inline (hplain block (List.mem_of_getElem? hblock))
      (fun k hk => absurd hk NatSet.not_mem_empty)] at hs
    rwa [through_eq hblock]
  have hlive : s ∈ l.before b := by
    rw [Liveness.before_eq hp hl hb]
    exact Liveness.pointwise_through (fun hk => absurd hk NatSet.not_mem_empty) hread
  rw [hq.definedAt_entry (by rwa [flow_inline])]
  rcases (hp.definedAt_entry hb).1 ((allDefined_iff_entry hp).1 h b s hb hread) with hs | ⟨c, hc⟩
  · exact .inl hs
  · obtain ⟨c, ⟨hc, hw, d, hd, hdb⟩, hafter⟩ := hp.exists_live_set hl hlive hc
    obtain ⟨block, hblock, hinlined⟩ := getElem?_inline (l := l) (r := r) hp hc
    refine .inr ⟨c, by rwa [flow_inline], ?_, d, ?_, by rwa [flow_inline]⟩
    · rw [body_of_getElem? hblock] at hw
      rw [body_of_getElem? hinlined]
      exact Block.mem_writtenSlots.1 (Block.mem_writtenSlots_inline hafter (Block.mem_writtenSlots.2 hw))
    · rwa [← hq.successors, flow_inline, hp.successors]

end Live

/-- An accepted function is accepted when it is inlined, and in every block each write that goes takes one read
of its slot with it. -/
theorem inlined_accepted (hp : p.violation? = none) (hplain : ∀ b ∈ p.blocks, b.plainCaptures = true)
    (h : p.inlined rounds r = .ok (q, n)) : q.violation? = none ∧
      ∀ (i : BlockId) (b : Block), p.blocks[i]? = some b → ∃ c, q.blocks[i]? = some c ∧
        ∃ spent : List Slot, b.writtenSlots.Perm (spent ++ c.writtenSlots) ∧ b.readSlots.Perm (spent ++ c.readSlots) ∧
          b.body.length = c.body.length + spent.length := by
  obtain ⟨hshape, hdefined⟩ := violation?_eq_none_iff_allDefined.1 hp
  obtain ⟨m, hm, -, hunique⟩ := Liveness.exists_solve hshape .slot
  obtain ⟨l, hl, hinline⟩ := inlined_eq_ok h
  obtain rfl : l = m := hunique rounds l hl
  obtain rfl : (p.inline l r).1 = q := congrArg Prod.fst hinline
  refine ⟨violation?_eq_none_iff_allDefined.2 ⟨hshape.inline, hshape.allDefined_inline hm hplain hdefined⟩, ?_⟩
  intro i b hb
  rw [blocks_inline, List.getElem?_map, hb, Option.map_some]
  refine ⟨_, rfl, ?_⟩
  split
  · exact Block.inline_spends _ _ (hplain b (List.mem_of_getElem? hb))
  · exact ⟨[], .refl _, .refl _, rfl⟩

/-! With other captures the write may go and the read stay. -/

example :
    let p : Proto :=
      { id := 0
        blocks := [
          ⟨0, 0, 0, [.store (.slot 0) (.global "t"), .ret [.closure 0 [.index (.slot 0) (.number 1)]] 0],
            .leave⟩] }
    p.violation? = none ∧ (p.inlined 3 ⟨0, []⟩).toOption.bind (·.1.violation?) = some (.undefinedSlot 0 0) := by
  cbv

end Proto

end LuaLift
