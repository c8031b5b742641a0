import LuaLift.Proofs.Flow.DominatorTree
import LuaLift.Proofs.Proto.Shape
import Mathlib

namespace LuaLift

open Relation

namespace Flow

variable {f : Flow}

/-- What a natural loop is, said by paths. -/
structure Natural (f : Flow) (l : NaturalLoop) : Prop where
  latches : ∀ a, a ∈ l.latches ↔ f.Returns a l.header
  body : ∀ x, x ∈ l.body ↔
    x = l.header ∨ f.graph.Reaches 0 x ∧ ∃ a ∈ l.latches, f.graph.Bypasses l.header x a
  dominates : ∀ x ∈ l.body, f.Dominates l.header x
  climbs : ∀ x ∈ l.body, Climbs f.dominance.immediate? x l.header

theorem Rooted.reachesIn_predecessorGraph (hf : f.Rooted) {h r x : BlockId} (hr : f.isReachable r = true)
    (hrh : r ≠ h) : f.predecessorGraph.ReachesIn (fun y => y < f.size ∧ y ≠ h) r x ↔
      f.isReachable x = true ∧ f.graph.Bypasses h x r := by
  constructor
  · intro hp
    induction hp with
    | refl => exact ⟨hr, hrh, .refl⟩
    | tail _ hb ih =>
      obtain ⟨hb, -, hne⟩ := hb
      obtain ⟨hreach, hedge⟩ := mem_predecessors_of_succ hb
      exact ⟨hreach, hne, ih.2.2.head ⟨hedge, ih.2.1⟩⟩
  · rintro ⟨hx, hne, hp⟩
    induction hp using ReflTransGen.head_induction_on with
    | refl => exact .refl
    | @head x y hxy _ ih =>
      have hy := hf.isReachable_successor hx hxy.1
      refine (ih hy hxy.2).tail ⟨?_, hf.lt_size hx, hne⟩
      rw [succ_predecessorGraph (hf.lt_size hy)]
      exact List.mem_filter.2 ⟨mem_order.2 hx, List.contains_iff_mem.2 hxy.1⟩

namespace IsLoop

variable {l l' : NaturalLoop} (hl : f.IsLoop l) (hf : f.Rooted)
include hl hf

theorem mem_body_iff {x : BlockId} : x ∈ l.body ↔
    x = l.header ∨ f.isReachable x = true ∧ ∃ a ∈ l.latches, f.graph.Bypasses l.header x a := by
  rw [hl.mem_body]
  constructor
  · rintro ⟨-, hx | ⟨r, hr, -, hrh, hp⟩⟩
    · exact .inl hx
    · obtain ⟨hx, hb⟩ := (hf.reachesIn_predecessorGraph (hl.mem_latches.1 hr).reachable hrh).1 hp
      exact .inr ⟨hx, r, hr, hb⟩
  · rintro (rfl | ⟨hx, r, hr, hb⟩)
    · exact ⟨hf.lt_size (hl.header_reachable hf), .inl rfl⟩
    · have hreach := (hl.mem_latches.1 hr).reachable
      have hp := (hf.reachesIn_predecessorGraph hreach hb.ne).2 ⟨hx, hb⟩
      exact ⟨hf.lt_size hx, .inr ⟨r, hr, hf.lt_size hreach, hb.ne, hp⟩⟩

theorem natural : f.Natural l where
  latches _ := hl.mem_latches.trans hf.returns_iff.symm
  body x := by rw [hl.mem_body_iff hf, hf.isReachable_iff]
  dominates x hx := hf.dominates_eq_true_iff.1 (hl.dominates hf hx)
  climbs x hx := (Dominance.climbs_iff hf.inRange hf.root_lt
    (hf.isReachable_iff.1 (hl.reachable hf hx))).2 (hl.dominates hf hx)

theorem backward_induction {P : BlockId → Prop} (header : P l.header)
    (step : ∀ a ∈ l.body, ∀ b ∈ l.body, b ∈ f.successors a → P b → P a) {x : BlockId} (hx : x ∈ l.body) :
    P x := by
  obtain rfl | ⟨hr, a, ha, hb⟩ := (hl.mem_body_iff hf).1 hx
  · exact header
  · obtain ⟨hne, hp⟩ := hb
    have hback := hl.mem_latches.1 ha
    clear hx
    induction hp using ReflTransGen.head_induction_on with
    | refl => exact step a (hl.latch_mem hf hback) _ (hl.header_mem hf) hback.edge header
    | @head x y hxy hya ih =>
      have hy := hf.isReachable_successor hr hxy.1
      have hyl := (hl.mem_body_iff hf).2 (.inr ⟨hy, a, ha, hxy.2, hya⟩)
      have hxl := (hl.mem_body_iff hf).2 (.inr ⟨hr, a, ha, hne, hya.head hxy⟩)
      exact step x hxl y hyl hxy.1 (ih hy hxy.2)

theorem subset_of_dominates (hl' : f.IsLoop l') (hne : l.header ≠ l'.header)
    (hd : f.dominance.dominates l.header l'.header = true) {x : BlockId} (hx : x ∈ l.body)
    (hx' : x ∈ l'.body) : l'.body ⊆ l.body ∧ l.header ∉ l'.body := by
  have houter : l.header ∉ l'.body := fun h =>
    hne (Dominance.dominates_antisymm hf.inRange hf.root_lt hd (hl'.dominates hf h))
  have source {a b : BlockId} (ha : f.isReachable a = true) (hab : b ∈ f.successors a) (hb : b ∈ l.body)
      (hb' : b ∈ l'.body) : a ∈ l.body :=
    hl.source_mem hf hb (fun he => houter (he ▸ hb')) ha hab
  -- a path to the common block enters the inner loop at its header, and was in the outer one by then
  have hinner : l'.header ∈ l.body := by
    have hreach := hf.isReachable_iff.1 (hl.reachable hf hx)
    induction hreach with
    | refl =>
      rw [hf.eq_zero_of_dominates (hl'.dominates hf hx')]
      exact hx
    | @tail a c ha hc ih =>
      by_cases hch : c = l'.header
      · exact hch ▸ hx
      · have har := hf.isReachable_iff.2 ha
        exact ih (source har hc hx hx') (hl'.source_mem hf hx' hch har hc)
  refine ⟨fun y hy => hl'.backward_induction hf (P := (· ∈ l.body)) hinner ?_ hy, houter⟩
  intro a ha b hb hab h
  exact source (hl'.reachable hf ha) hab h hb

theorem disjoint_or_subset (hl' : f.IsLoop l') (hne : l.header ≠ l'.header) :
    l.body.Disjoint l'.body ∨ (l.body ⊆ l'.body ∧ l'.header ∉ l.body) ∨
      (l'.body ⊆ l.body ∧ l.header ∉ l'.body) := by
  by_cases h : l.body.Disjoint l'.body
  · exact .inl h
  · obtain ⟨x, hx, hx'⟩ : ∃ x, x ∈ l.body ∧ x ∈ l'.body := by simpa [List.Disjoint] using h
    rcases Dominance.dominates_total hf.inRange hf.root_lt (hl.dominates hf hx) (hl'.dominates hf hx') with hd | hd
    · exact .inr (.inr (hl.subset_of_dominates hf hl' hne hd hx hx'))
    · exact .inr (.inl (hl'.subset_of_dominates hf hl hne.symm hd hx' hx))

omit hf in
theorem ascending : l.body.Pairwise (· < ·) := by
  rw [hl.eq_loopAt]
  exact List.pairwise_lt_range.filter _

end IsLoop

theorem length_le_loops (f : Flow) :
    (f.loops f.dominance).Pairwise fun l l' => l.body.length ≤ l'.body.length := by
  refine (List.pairwise_mergeSort (fun a b c hab hbc => ?_) (fun a b => ?_) _).imp of_decide_eq_true
  · exact decide_eq_true (Nat.le_trans (of_decide_eq_true hab) (of_decide_eq_true hbc))
  · simpa using Nat.le_total a.body.length b.body.length

theorem Rooted.loops_pairwise (hf : f.Rooted) : (f.loops f.dominance).Pairwise fun l l' =>
    l.body.Disjoint l'.body ∨ l.body ⊆ l'.body ∧ ¬ l'.body ⊆ l.body := by
  have hheaders : (f.loops f.dominance).Pairwise fun l l' => l.header ≠ l'.header :=
    List.pairwise_map.1 f.nodup_headers
  refine (hheaders.and f.length_le_loops).imp_of_mem fun {l l'} hl hl' h => ?_
  have hloop := isLoop_of_mem hl
  have hloop' := isLoop_of_mem hl'
  rcases hloop.disjoint_or_subset hf hloop' h.1 with hd | ⟨hsub, hout⟩ | ⟨hsub, hout⟩
  · exact .inl hd
  · exact .inr ⟨hsub, fun hback => hout (hback (hloop'.header_mem hf))⟩
  · -- the later loop has no fewer blocks, and the earlier one has its header besides
    have hnodup : (l.header :: l'.body).Nodup :=
      List.nodup_cons.2 ⟨hout, hloop'.ascending.imp Nat.ne_of_lt⟩
    have := hnodup.length_le_of_subset (List.cons_subset.2 ⟨hloop.header_mem hf, hsub⟩)
    rw [List.length_cons] at this
    omega

theorem Rooted.mem_headers (hf : f.Rooted) {h : BlockId} :
    h ∈ (f.loops f.dominance).map (·.header) ↔ ∃ a, f.Returns a h := by
  constructor
  · intro hh
    obtain ⟨l, hl, rfl⟩ := List.mem_map.1 hh
    obtain ⟨a, ha⟩ := (isLoop_of_mem hl).exists_latch
    exact ⟨a, hf.returns_iff.2 ha⟩
  · rintro ⟨a, ha⟩
    have hl := isLoop_of_backEdge (hf.returns_iff.1 ha)
    exact List.mem_map.2 ⟨_, hl.mem_loops hf, rfl⟩

end Flow

namespace Proto

variable {p : Proto}

/-- The loops of a function: one for each block that an edge returns to, a loop inside another one before it,
and all others without a block in common. -/
theorem loops_nested (hp : p.violation? = none) :
    let f := Flow.of p
    let ls := f.loops f.dominance
    (ls.map (·.header)).Nodup ∧ (∀ h, h ∈ ls.map (·.header) ↔ ∃ a, f.Returns a h) ∧
      (∀ l ∈ ls, f.Natural l) ∧
      ls.Pairwise fun l l' => l.body.Disjoint l'.body ∨ l.body ⊆ l'.body ∧ ¬ l'.body ⊆ l.body := by
  have hf := (wellShaped_of_violation hp).rooted
  exact ⟨Flow.nodup_headers _, fun _ => hf.mem_headers, fun l hl => (Flow.isLoop_of_mem hl).natural hf,
    hf.loops_pairwise⟩

def thicket : Proto :=
  { id := 0
    blocks := [
      ⟨0, 0, 0, [], .always 1⟩,
      ⟨1, 1, 1, [], .branch (.global "a") 2 6⟩,
      ⟨2, 2, 2, [], .branch (.global "b") 3 4⟩,
      ⟨3, 3, 3, [.call (.global "f") [] 0], .branch (.global "c") 2 4⟩,
      ⟨4, 4, 4, [.call (.global "g") [] 0], .branch (.global "d") 2 5⟩,
      ⟨5, 5, 5, [], .always 1⟩,
      ⟨6, 6, 6, [], .branch (.global "e") 7 8⟩,
      ⟨7, 7, 7, [], .branch (.global "h") 8 9⟩,
      ⟨8, 8, 8, [], .always 7⟩,
      ⟨9, 9, 9, [.ret [] 0], .leave⟩] }

theorem loops_nested_thicket : thicket.violation? = none ∧
    (∀ h, h ∈ [2, 1] ↔ ∃ a, (Flow.of thicket).Returns a h) ∧
      (Flow.of thicket).Natural ⟨2, [3, 4], [2, 3, 4]⟩ ∧ (Flow.of thicket).Natural ⟨1, [5], [1, 2, 3, 4, 5]⟩ := by
  have hloops : (Flow.of thicket).loops (Flow.of thicket).dominance =
      [⟨2, [3, 4], [2, 3, 4]⟩, ⟨1, [5], [1, 2, 3, 4, 5]⟩] := by cbv
  obtain ⟨-, hheaders, hnatural, -⟩ := loops_nested (p := thicket) (by cbv)
  rw [hloops] at hheaders hnatural
  exact ⟨by cbv, hheaders, hnatural _ (.head _), hnatural _ (.tail _ (.head _))⟩

end Proto

end LuaLift
