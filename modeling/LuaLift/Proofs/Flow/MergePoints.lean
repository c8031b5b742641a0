import LuaLift.Proofs.Flow.Reducible

namespace LuaLift

open Relation

namespace Flow

variable {f : Flow} {m a b : BlockId}

/-- No forward path from a block to an end misses `m`. -/
def Blocks (f : Flow) (m b : BlockId) : Prop :=
  ¬ (f.reversed f.dominance).ReachesIn (· ≠ m) f.size b

theorem mem_forward : b ∈ f.forward f.dominance a ↔
    b ∈ f.successors a ∧ f.dominance.dominates b a = false := by
  simp [forward]

theorem size_reversed : (f.reversed f.dominance).size = f.size + 1 := by
  simp [reversed, Digraph.size]

theorem size_lt_reversed (f : Flow) : f.size < (f.reversed f.dominance).size :=
  size_reversed ▸ Nat.lt_succ_self f.size

theorem succ_reversed (hb : b < f.size) (m : Dominance) :
    (f.reversed m).succ b = f.order.filter fun a => (f.forward m a).contains b := by
  simp only [reversed, Digraph.succ]
  rw [List.getElem?_append_left (by simpa using hb), List.getElem?_map, List.getElem?_range hb]
  simp [List.filter_map, Function.comp_def]

theorem succ_reversed_size (m : Dominance) :
    (f.reversed m).succ f.size = f.order.filter fun a =>
      (f.forward m a).isEmpty || (f.forward m a).length ≠ (f.successors a).length := by
  simp only [reversed, Digraph.succ]
  rw [List.getElem?_append_right (by simp)]
  simp [List.filter_map, Function.comp_def]

theorem succ_reversed_of_size_lt (hb : f.size < b) (m : Dominance) : (f.reversed m).succ b = [] := by
  simp only [reversed, Digraph.succ]
  rw [List.getElem?_eq_none (by simpa using Nat.succ_le_of_lt hb)]
  rfl

theorem mem_succ_reversed (hb : b < f.size) :
    a ∈ (f.reversed f.dominance).succ b ↔ f.Forward a b := by
  rw [succ_reversed hb, List.mem_filter, List.contains_iff_mem, mem_forward]
  constructor
  · rintro ⟨ha, he, hd⟩
    exact ⟨mem_order.1 ha, he, hd⟩
  · intro h
    exact ⟨mem_order.2 h.reachable, h.edge, h.forward⟩

theorem mem_succ_size : a ∈ (f.reversed f.dominance).succ f.size ↔ f.isReachable a = true ∧
    (f.forward f.dominance a = [] ∨ (f.forward f.dominance a).length ≠ (f.successors a).length) := by
  rw [succ_reversed_size, List.mem_filter, mem_order]
  simp only [Bool.or_eq_true, List.isEmpty_iff, decide_eq_true_eq]

theorem BackEdge.mem_succ_size (h : f.BackEdge a b) : a ∈ (f.reversed f.dominance).succ f.size := by
  refine Flow.mem_succ_size.2 ⟨h.reachable, .inr fun he => ?_⟩
  have := List.length_filter_eq_length_iff.1 he b h.edge
  simp [h.back] at this

theorem Rooted.inRange_reversed (hf : f.Rooted) : (f.reversed f.dominance).InRange := by
  intro a b hb
  rw [size_reversed]
  have hr : f.isReachable b = true := by
    rcases Nat.lt_trichotomy a f.size with ha | rfl | ha
    · exact ((mem_succ_reversed ha).1 hb).reachable
    · exact (mem_succ_size.1 hb).1
    · rw [succ_reversed_of_size_lt ha] at hb
      cases hb
  exact Nat.lt_succ_of_lt (hf.lt_size hr)

namespace Blocks

variable (hf : f.Rooted)
include hf

theorem forward (h : f.Blocks m a) (hne : a ≠ m) (hab : f.Forward a b) : f.Blocks m b := by
  intro hb
  have hlt := hf.lt_size (hf.isReachable_successor hab.reachable hab.edge)
  exact h (hb.tail ⟨(mem_succ_reversed hlt).2 hab, hne⟩)

omit hf in
theorem forward_of_edge (h : f.Blocks m a) (hne : a ≠ m) (ha : f.isReachable a = true)
    (hb : b ∈ f.successors a) : f.Forward a b :=
  (forward_or_back ha hb).resolve_right fun hback =>
    h (ReflTransGen.single ⟨hback.mem_succ_size, hne⟩)

omit hf in
theorem successors_ne_nil (h : f.Blocks m a) (hne : a ≠ m) (ha : f.isReachable a = true) :
    f.successors a ≠ [] :=
  fun hnil => h (ReflTransGen.single ⟨mem_succ_size.2 ⟨ha, .inl (by simp [Flow.forward, hnil])⟩, hne⟩)

theorem successor (h : f.Blocks m a) (hne : a ≠ m) (ha : f.isReachable a = true)
    (hb : b ∈ f.successors a) : f.Blocks m b :=
  h.forward hf hne (h.forward_of_edge hne ha hb)

theorem mem_body (hr : f.Reducible) {l : NaturalLoop} (hl : f.IsLoop l) (h : f.Blocks m l.header) :
    m ∈ l.body := by
  refine Classical.byContradiction fun hm => ?_
  have hne {x : BlockId} (hx : x ∈ l.body) : x ≠ m := fun he => hm (he ▸ hx)
  have along {x : BlockId} (hx : f.ForwardIn (· ∈ l.body) l.header x) : x ∈ l.body ∧ f.Blocks m x := by
    induction hx with
    | refl => exact ⟨hl.header_mem hf, h⟩
    | tail _ hb ih => exact ⟨hb.2, ih.2.forward hf (hne ih.1) hb.1⟩
  obtain ⟨a, ha⟩ := hl.exists_latch
  have hab := hl.latch_mem hf ha
  have hba := (along (hl.forwardIn hf hr hab)).2
  exact (hba.forward_of_edge (hne hab) ha.reachable ha.edge).not_back ha

end Blocks

theorem Rooted.mergePoint_eq_some_iff_immediate? (hf : f.Rooted) :
    (f.mergePoints f.dominance)[b]?.join = some m ↔ f.isReachable b = true ∧
      (Dominance.of (f.reversed f.dominance) f.size).immediate? b = some m ∧ m ≠ f.size := by
  rw [mergePoints, List.getElem?_map]
  by_cases hb : b < f.size
  · simp [List.getElem?_range hb, Option.filter_eq_some_iff]
  · have hn : f.isReachable b ≠ true := fun h => hb (hf.lt_size h)
    simp [hb, hn]

theorem Rooted.blocks_of_mergePoint (hf : f.Rooted)
    (h : (f.mergePoints f.dominance)[b]?.join = some m) : f.Blocks m b ∧ m ≠ b := by
  obtain ⟨-, him, hne⟩ := hf.mergePoint_eq_some_iff_immediate?.1 h
  obtain ⟨hd, hmb, -⟩ := Dominance.immediate?_eq_some him
  obtain ⟨-, hby⟩ := (Dominance.dominates_iff hf.inRange_reversed f.size_lt_reversed).1 hd
  exact ⟨fun hp => hby ⟨Ne.symm hne, hp⟩, hmb⟩

namespace Rooted

variable (hf : f.Rooted) (hr : f.Reducible)
include hf hr

theorem reaches_of_isReachable (hb : f.isReachable b = true) :
    (f.reversed f.dominance).Reaches f.size b := by
  induction hk : f.rank b using Nat.strongRecOn generalizing b with
  | _ k ih =>
    cases hfw : f.forward f.dominance b with
    | nil => exact .single (mem_succ_size.2 ⟨hb, .inl hfw⟩)
    | cons c cs =>
      obtain ⟨he, hd⟩ := mem_forward.1 (hfw ▸ List.mem_cons_self : c ∈ f.forward f.dominance b)
      have hbc : f.Forward b c := ⟨hb, he, hd⟩
      have hc := hf.isReachable_successor hb he
      have hlt := hf.rank_lt hr hbc
      exact (ih _ (hk ▸ hlt) hc rfl).tail ((mem_succ_reversed (hf.lt_size hc)).2 hbc)

theorem forwardTo_of_blocks (h : f.Blocks m b) (hb : f.isReachable b = true) :
    ReflTransGen f.Forward b m := by
  induction hk : f.rank b using Nat.strongRecOn generalizing b with
  | _ k ih =>
    rcases Decidable.em (b = m) with rfl | hne
    · exact .refl
    · obtain ⟨c, hc⟩ := List.exists_mem_of_ne_nil _ (h.successors_ne_nil hne hb)
      have hbc := h.forward_of_edge hne hb hc
      have hlt := hf.rank_lt hr hbc
      exact (ih _ (hk ▸ hlt) (h.forward hf hne hbc) (hf.isReachable_successor hb hc) rfl).head hbc

end Rooted

theorem reaches_of_forward (h : ReflTransGen f.Forward a b) : f.graph.Reaches a b :=
  ReflTransGen.mono (fun _ _ h => h.edge) _ _ h

section Merge

variable (hf : f.Rooted) (hr : f.Reducible)
include hf hr

theorem Rooted.isReachable_of_blocks (h : f.Blocks m b) (hb : f.isReachable b = true) :
    f.isReachable m = true :=
  hf.isReachable_iff.2 ((hf.isReachable_iff.1 hb).trans (reaches_of_forward (hf.forwardTo_of_blocks hr h hb)))

theorem Rooted.dominates_reversed_iff (hb : f.isReachable b = true) :
    (Dominance.of (f.reversed f.dominance) f.size).dominates m b = true ↔
      m = f.size ∨ f.Blocks m b := by
  rw [Dominance.dominates_iff hf.inRange_reversed f.size_lt_reversed, Digraph.Bypasses, Blocks]
  simp only [hf.reaches_of_isReachable hr hb, true_and, ne_eq, Classical.not_and_iff_not_or_not,
    Classical.not_not, eq_comm]

theorem Rooted.mergePoint_eq_some_iff : (f.mergePoints f.dominance)[b]?.join = some m ↔
    f.isReachable b = true ∧ m ≠ b ∧ f.Blocks m b ∧ ∀ e, f.Blocks e b → e ≠ b → f.Blocks e m := by
  rw [hf.mergePoint_eq_some_iff_immediate?,
    Dominance.immediate?_eq_some_iff hf.inRange_reversed f.size_lt_reversed]
  refine and_congr_right fun hb => ?_
  have reach {e : BlockId} (h : f.Blocks e b) : f.isReachable e = true ∧ e ≠ f.size :=
    have he := hf.isReachable_of_blocks hr h hb
    ⟨he, Nat.ne_of_lt (hf.lt_size he)⟩
  constructor
  · rintro ⟨⟨hd, hne, hall⟩, hms⟩
    have hm := ((hf.dominates_reversed_iff hr hb).1 hd).resolve_left hms
    refine ⟨hne, hm, fun e he hen => ?_⟩
    have := hall e ((hf.dominates_reversed_iff hr hb).2 (.inr he)) hen
    exact ((hf.dominates_reversed_iff hr (reach hm).1).1 this).resolve_left (reach he).2
  · rintro ⟨hne, hm, hall⟩
    refine ⟨⟨(hf.dominates_reversed_iff hr hb).2 (.inr hm), hne, fun e he hen => ?_⟩, (reach hm).2⟩
    refine (hf.dominates_reversed_iff hr (reach hm).1).2 ?_
    exact ((hf.dominates_reversed_iff hr hb).1 he).imp_right fun he => hall e he hen

end Merge

theorem Rooted.blocks_of_closed (hf : f.Rooted) (hm : m ≠ f.size) {S : BlockId → Prop} (hS : ∀ v, S v →
    f.isReachable v = true ∧ f.successors v ≠ [] ∧ ∀ t ∈ f.successors v, f.Forward v t ∧ (t = m ∨ S t))
    (hb : S b) : f.Blocks m b := by
  have outside {v : BlockId} (hv : (f.reversed f.dominance).ReachesIn (· ≠ m) f.size v) : ¬ S v := by
    induction hv with
    | refl => exact fun h => Nat.lt_irrefl _ (hf.lt_size (hS _ h).1)
    | @tail u v hu hv ih =>
      intro hSv
      obtain ⟨-, hne, hall⟩ := hS v hSv
      have hum : u ≠ m := Digraph.Bypasses.ne ⟨Ne.symm hm, hu⟩
      rcases Nat.lt_trichotomy u f.size with hlt | rfl | hgt
      · have hfw := (mem_succ_reversed hlt).1 hv.1
        exact ih ((hall u hfw.edge).2.resolve_left hum)
      · rcases (mem_succ_size.1 hv.1).2 with hnil | hlen
        · obtain ⟨t, ht⟩ := List.exists_mem_of_ne_nil _ hne
          have := mem_forward.2 ⟨ht, (hall t ht).1.forward⟩
          simp [hnil] at this
        · refine hlen (List.length_filter_eq_length_iff.2 fun t ht => ?_)
          simp [(hall t ht).1.forward]
      · have hn : (f.reversed f.dominance).next.length ≤ u := by
          have := size_reversed (f := f)
          simp only [Digraph.size] at this
          omega
        simp [Digraph.succ, List.getElem?_eq_none hn] at hv
  exact fun hp => outside hp hb

end Flow

end LuaLift
