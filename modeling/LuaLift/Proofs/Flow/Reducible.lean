import LuaLift.Flow.Loops
import LuaLift.Proofs.Flow.Dominators

namespace LuaLift

open Relation

theorem idxOf_lt_of_sublist {a b : Nat} {l : List Nat} (h : [b, a].Sublist l) (hl : l.Nodup) :
    l.idxOf b < l.idxOf a := by
  induction l with
  | nil => cases h
  | cons x l ih =>
    obtain ⟨hx, hl⟩ := List.nodup_cons.1 hl
    cases h with
    | cons _ h =>
      have hb : b ≠ x := by rintro rfl; exact hx (h.subset (.head _))
      have ha : a ≠ x := by rintro rfl; exact hx (h.subset (.tail _ (.head _)))
      simp only [List.idxOf_cons, beq_eq_false_iff_ne.2 (Ne.symm hb), beq_eq_false_iff_ne.2 (Ne.symm ha),
        cond_false]
      exact Nat.succ_lt_succ (ih h hl)
    | cons_cons _ h =>
      have ha : a ≠ b := by rintro rfl; exact hx (h.subset (.head _))
      simp only [List.idxOf_cons, beq_self_eq_true, beq_eq_false_iff_ne.2 (Ne.symm ha), cond_true,
        cond_false]
      exact Nat.succ_pos _

theorem flatMap_eq_singleton {α : Type} {l : List α} {g : α → List α} {u : α} (hn : l.Nodup) (hu : u ∈ l)
    (hg : g u = [u]) (ho : ∀ x ∈ l, x ≠ u → g x = []) : l.flatMap g = [u] := by
  obtain ⟨s, r, rfl⟩ := List.append_of_mem hu
  have hs : s.flatMap g = [] := List.flatMap_eq_nil_iff.2 fun x hx => ho x (by simp [hx]) (by grind)
  have hr : r.flatMap g = [] := List.flatMap_eq_nil_iff.2 fun x hx => ho x (by simp [hx]) (by grind)
  simp [List.flatMap_append, hs, hr, hg]

namespace Flow

variable {f : Flow}

structure Rooted (f : Flow) : Prop where
  inRange : f.graph.InRange
  root_lt : 0 < f.graph.size

structure Forward (f : Flow) (a b : BlockId) : Prop where
  reachable : f.isReachable a = true
  edge : b ∈ f.successors a
  forward : f.dominance.dominates b a = false

structure BackEdge (f : Flow) (a b : BlockId) : Prop where
  reachable : f.isReachable a = true
  edge : b ∈ f.successors a
  back : f.dominance.dominates b a = true

def rank (f : Flow) (b : BlockId) : Nat := f.walk.postorder.idxOf b

def Reducible (f : Flow) : Prop := f.sideEntry? f.dominance = none

def ForwardIn (f : Flow) (S : BlockId → Prop) : BlockId → BlockId → Prop :=
  ReflTransGen fun a b => f.Forward a b ∧ S b

theorem forward_or_back {a b : BlockId} (ha : f.isReachable a = true) (hb : b ∈ f.successors a) :
    f.Forward a b ∨ f.BackEdge a b := by
  cases hd : f.dominance.dominates b a with
  | false => exact .inl ⟨ha, hb, hd⟩
  | true => exact .inr ⟨ha, hb, hd⟩

theorem Forward.not_back {a b : BlockId} (h : f.Forward a b) : ¬ f.BackEdge a b := by
  intro hb
  have := h.forward
  rw [hb.back] at this
  cases this

theorem mem_order {b : BlockId} : b ∈ f.order ↔ f.isReachable b = true := by
  simp [order, isReachable]

theorem nodup_order (f : Flow) : f.order.Nodup := by
  rw [order, f.walk_eq]
  exact (List.reverse_perm _).nodup_iff.2 Digraph.nodup_walkFrom

theorem position?_eq_some_iff {b : BlockId} {i : Nat} : f.position? b = some i ↔ f.order[i]? = some b := by
  rw [position?, List.idxOf?_eq_some_iff]
  constructor
  · rintro ⟨hlt, hget, -⟩
    rw [List.getElem?_eq_getElem hlt, hget]
  · intro h
    obtain ⟨hlt, hget⟩ := List.getElem?_eq_some_iff.1 h
    refine ⟨hlt, hget, fun j hj he => ?_⟩
    exact List.pairwise_iff_getElem.1 f.nodup_order j i (Nat.lt_trans hj hlt) hlt hj (he.trans hget.symm)

theorem exists_position? {b : BlockId} (hb : f.isReachable b = true) : ∃ i, f.position? b = some i := by
  obtain ⟨i, hi⟩ := List.getElem?_of_mem (mem_order.2 hb)
  exact ⟨i, position?_eq_some_iff.2 hi⟩

theorem isReachable_of_position? {b : BlockId} {i : Nat} (h : f.position? b = some i) : f.isReachable b = true :=
  mem_order.1 (List.mem_of_getElem? (position?_eq_some_iff.1 h))

theorem length_order_le (f : Flow) : f.order.length ≤ f.size := by
  have hlen := (f.graph.walks [] (List.range f.graph.size) [0]).perm.length_eq
  rw [List.length_append] at hlen
  rw [order, List.length_reverse, f.walk_eq]
  exact Nat.le_trans (Nat.le_of_add_right_le (Nat.le_of_eq hlen)) (Nat.le_of_eq List.length_range)

theorem rank_lt_length {b : BlockId} (hb : f.isReachable b = true) :
    f.rank b < f.walk.postorder.length := by
  simpa [rank, isReachable, List.idxOf_lt_length_iff] using hb

theorem succ_predecessorGraph {b : BlockId} (hb : b < f.size) :
    f.predecessorGraph.succ b = f.predecessors b := by
  simp [predecessorGraph, Digraph.succ, hb]

theorem mem_predecessors_of_succ {a b : BlockId} (hb : b ∈ f.predecessorGraph.succ a) :
    f.isReachable b = true ∧ a ∈ f.successors b := by
  rw [predecessorGraph, Digraph.succ, List.getElem?_map] at hb
  cases hi : (List.range f.size)[a]? with
  | none => simp [hi] at hb
  | some c =>
    obtain ⟨hlt, rfl⟩ := List.getElem?_eq_some_iff.1 hi
    simpa [hi, predecessors, order, isReachable] using hb

namespace Rooted

variable (hf : f.Rooted)
include hf

theorem isReachable_iff {b : BlockId} : f.isReachable b = true ↔ f.graph.Reaches 0 b := by
  rw [isReachable, List.contains_eq_mem, decide_eq_true_eq, f.walk_eq,
    Digraph.mem_walkFrom hf.inRange hf.root_lt]

theorem lt_size {b : BlockId} (hb : f.isReachable b = true) : b < f.size := by
  rcases ReflTransGen.cases_tail (hf.isReachable_iff.1 hb) with rfl | ⟨a, -, ha⟩
  · exact hf.root_lt
  · exact hf.inRange a b ha

theorem isReachable_successor {a b : BlockId} (ha : f.isReachable a = true) (hb : b ∈ f.successors a) :
    f.isReachable b = true :=
  hf.isReachable_iff.2 ((hf.isReachable_iff.1 ha).tail hb)

theorem dominates_iff {d b : BlockId} :
    f.dominance.dominates d b = true ↔ f.isReachable b = true ∧ ¬ f.graph.Bypasses d 0 b := by
  rw [dominance, Dominance.dominates_iff hf.inRange hf.root_lt, hf.isReachable_iff]

theorem dominates_refl {b : BlockId} (hb : f.isReachable b = true) :
    f.dominance.dominates b b = true :=
  Dominance.dominates_refl hf.inRange hf.root_lt (hf.isReachable_iff.1 hb)

theorem dominates_source {d a b : BlockId} (h : f.dominance.dominates d b = true)
    (ha : f.isReachable a = true) (hb : b ∈ f.successors a) (hd : b ≠ d) :
    f.dominance.dominates d a = true :=
  Dominance.dominates_source hf.inRange hf.root_lt h (hf.isReachable_iff.1 ha) hb hd

theorem eq_zero_of_dominates {d : BlockId} (h : f.dominance.dominates d 0 = true) : d = 0 := by
  rcases Decidable.em (d = 0) with hd | hd
  · exact hd
  · exact absurd ⟨Ne.symm hd, .refl⟩ (hf.dominates_iff.1 h).2

theorem exists_forward {x : BlockId} (hx : f.isReachable x = true) (h0 : x ≠ 0) :
    ∃ a, f.Forward a x := by
  rcases Digraph.bypasses_or_arrives h0 (hf.isReachable_iff.1 hx) with h | ⟨c, hc, hxc⟩
  · exact absurd rfl h.ne
  · refine ⟨c, hf.isReachable_iff.2 hc.2.reaches, hxc, ?_⟩
    rw [Bool.eq_false_iff]
    exact fun hd => (hf.dominates_iff.1 hd).2 hc

theorem rank_lt (hr : f.Reducible) {a b : BlockId} (h : f.Forward a b) : f.rank b < f.rank a := by
  have ha : a ∈ (f.graph.walkFrom 0).postorder := by
    have := h.reachable
    rw [isReachable, f.walk_eq] at this
    simpa using this
  rw [rank, rank, f.walk_eq]
  refine idxOf_lt_of_sublist ?_ Digraph.nodup_walkFrom
  refine (Digraph.walkFrom_ordered hf.inRange ha h.edge).resolve_left fun hret => ?_
  rw [← f.walk_eq] at hret
  have := List.find?_eq_none.1 hr _ hret
  simp [h.forward] at this

end Rooted

theorem mem_latches {h a : BlockId} :
    a ∈ (f.loopAt (f.backEdges f.dominance) h).latches ↔ f.BackEdge a h := by
  simp only [loopAt, backEdges, List.mem_map, List.mem_filter, List.mem_flatMap, order,
    List.mem_reverse, decide_eq_true_eq]
  constructor
  · rintro ⟨_, ⟨⟨b, hb, c, ⟨hc, hd⟩, rfl⟩, rfl⟩, rfl⟩
    exact ⟨by simpa [isReachable] using hb, hc, hd⟩
  · rintro ⟨ha, hh, hd⟩
    exact ⟨(a, h), ⟨⟨a, by simpa [isReachable] using ha, h, ⟨hh, hd⟩, rfl⟩, rfl⟩, rfl⟩

theorem latches_eq_singleton {h u : BlockId} (hu : f.BackEdge u h)
    (ho : ∀ a, f.BackEdge a h → a = u) (hs : (f.successors u).filter (· = h) = [h]) :
    (f.loopAt (f.backEdges f.dominance) h).latches = [u] := by
  have hmap : (f.loopAt (f.backEdges f.dominance) h).latches = f.order.flatMap fun a =>
      (((f.successors a).filter (· = h)).filter (f.dominance.dominates · a)).map fun _ => a := by
    simp only [loopAt, backEdges, List.filter_flatMap, List.map_flatMap, List.filter_map, List.map_map,
      List.filter_filter]
    congr 1
    funext a
    simp only [Function.comp_def]
    congr 2
    funext x
    exact Bool.and_comm _ _
  rw [hmap]
  refine flatMap_eq_singleton ?_ ?_ ?_ fun x hx hne => ?_
  · rw [order, (List.reverse_perm _).nodup_iff, f.walk_eq]
    exact Digraph.nodup_walkFrom
  · exact mem_order.2 hu.reachable
  · simp [hs, hu.back]
  · simp only [List.map_eq_nil_iff, List.filter_eq_nil_iff, List.mem_filter, decide_eq_true_eq]
    rintro _ ⟨hxh, rfl⟩ hd
    exact hne (ho x ⟨mem_order.1 hx, hxh, hd⟩)

structure IsLoop (f : Flow) (l : NaturalLoop) : Prop where
  eq_loopAt : l = f.loopAt (f.backEdges f.dominance) l.header
  exists_latch : ∃ a, f.BackEdge a l.header

theorem isLoop_of_mem {l : NaturalLoop} (hl : l ∈ f.loops f.dominance) : f.IsLoop l := by
  simp only [loops, List.mem_mergeSort, List.mem_map, List.mem_filter, List.any_eq_true,
    decide_eq_true_eq] at hl
  obtain ⟨h, ⟨-, ⟨a, b⟩, he, rfl⟩, rfl⟩ := hl
  refine ⟨rfl, a, mem_latches.1 ?_⟩
  exact List.mem_map.2 ⟨(a, b), List.mem_filter.2 ⟨he, by simp [loopAt]⟩, rfl⟩

theorem nodup_headers (f : Flow) : ((f.loops f.dominance).map (·.header)).Nodup := by
  rw [loops, ((List.mergeSort_perm _ _).map _).nodup_iff, List.map_map]
  have hid (l : List BlockId) : l.map ((·.header) ∘ f.loopAt (f.backEdges f.dominance)) = l := List.map_id l
  rw [hid]
  exact f.nodup_order.filter _

theorem isLoop_of_backEdge {a b : BlockId} (h : f.BackEdge a b) :
    f.IsLoop (f.loopAt (f.backEdges f.dominance) b) :=
  ⟨rfl, a, h⟩

namespace IsLoop

variable {l : NaturalLoop} (hl : f.IsLoop l)
include hl

theorem mem_latches {a : BlockId} : a ∈ l.latches ↔ f.BackEdge a l.header := by
  rw [hl.eq_loopAt]
  exact Flow.mem_latches

theorem mem_body {x : BlockId} : x ∈ l.body ↔ x < f.size ∧ (x = l.header ∨
    ∃ r ∈ l.latches, r < f.size ∧ r ≠ l.header ∧
      f.predecessorGraph.ReachesIn (fun y => y < f.size ∧ y ≠ l.header) r x) := by
  have hb : l.body = f.loopBody l.header l.latches := by rw [hl.eq_loopAt]; rfl
  have he : ∀ y, y ∈ (List.range f.size).erase l.header ↔ y < f.size ∧ y ≠ l.header := by
    intro y
    rw [List.nodup_range.mem_erase_iff, List.mem_range, and_comm]
  rw [hb, loopBody, List.mem_filter, List.mem_range]
  simp only [Bool.or_eq_true, decide_eq_true_eq, List.contains_eq_mem, Digraph.mem_walkIn, he,
    and_assoc]

variable (hf : f.Rooted)
include hf

theorem header_reachable : f.isReachable l.header = true := by
  obtain ⟨a, ha⟩ := hl.exists_latch
  exact hf.isReachable_successor ha.reachable ha.edge

theorem mem_loops : l ∈ f.loops f.dominance := by
  obtain ⟨a, ha⟩ := hl.exists_latch
  simp only [loops, List.mem_mergeSort, List.mem_map, List.mem_filter, List.any_eq_true, decide_eq_true_eq]
  refine ⟨l.header, ⟨?_, (a, l.header), ?_, rfl⟩, hl.eq_loopAt.symm⟩
  · exact mem_order.2 (hl.header_reachable hf)
  · simp only [backEdges, order, List.mem_flatMap, List.mem_reverse, List.mem_map, List.mem_filter]
    exact ⟨a, by simpa [isReachable] using ha.reachable, l.header, ⟨ha.edge, ha.back⟩, rfl⟩

theorem header_mem : l.header ∈ l.body :=
  hl.mem_body.2 ⟨hf.lt_size (hl.header_reachable hf), .inl rfl⟩

theorem latch_mem {a : BlockId} (ha : f.BackEdge a l.header) : a ∈ l.body := by
  rcases Decidable.em (a = l.header) with rfl | hne
  · exact hl.header_mem hf
  · have hlt := hf.lt_size ha.reachable
    exact hl.mem_body.2 ⟨hlt, .inr ⟨a, hl.mem_latches.2 ha, hlt, hne, .refl⟩⟩

theorem source_mem {a x : BlockId} (hx : x ∈ l.body) (hne : x ≠ l.header)
    (ha : f.isReachable a = true) (hax : x ∈ f.successors a) : a ∈ l.body := by
  rcases Decidable.em (a = l.header) with rfl | hah
  · exact hl.header_mem hf
  · obtain ⟨hxs, hx | ⟨r, hr, hrs, hrh, hp⟩⟩ := hl.mem_body.1 hx
    · exact absurd hx hne
    · refine hl.mem_body.2 ⟨hf.lt_size ha, .inr ⟨r, hr, hrs, hrh, hp.tail ⟨?_, hf.lt_size ha, hah⟩⟩⟩
      rw [succ_predecessorGraph hxs]
      simpa [predecessors, order, isReachable, ha, hax] using ha

theorem dominates {x : BlockId} (hx : x ∈ l.body) : f.dominance.dominates l.header x = true := by
  obtain ⟨-, rfl | ⟨r, hr, -, hrh, hp⟩⟩ := hl.mem_body.1 hx
  · exact hf.dominates_refl (hl.header_reachable hf)
  · clear hx
    induction hp with
    | refl => exact (hl.mem_latches.1 hr).back
    | @tail a b hra hb ih =>
      obtain ⟨hbr, hba⟩ := mem_predecessors_of_succ hb.1
      have hne : a ≠ l.header := by
        rcases ReflTransGen.cases_tail hra with h | ⟨c, -, hc⟩
        · exact h ▸ hrh
        · exact hc.2.2
      exact hf.dominates_source ih hbr hba hne

theorem reachable {x : BlockId} (hx : x ∈ l.body) : f.isReachable x = true :=
  (hf.dominates_iff.1 (hl.dominates hf hx)).1

theorem forwardIn (hr : f.Reducible) {x : BlockId} (hx : x ∈ l.body) :
    f.ForwardIn (· ∈ l.body) l.header x := by
  induction hk : f.walk.postorder.length - f.rank x using Nat.strongRecOn generalizing x with
  | _ k ih =>
    rcases Decidable.em (x = l.header) with rfl | hne
    · exact .refl
    · have h0 : x ≠ 0 := by
        rintro rfl
        exact hne (hf.eq_zero_of_dominates (hl.dominates hf hx)).symm
      obtain ⟨a, ha⟩ := hf.exists_forward (hl.reachable hf hx) h0
      have hab := hl.source_mem hf hx hne ha.reachable ha.edge
      have hlt := hf.rank_lt hr ha
      have hle := rank_lt_length ha.reachable
      exact (ih _ (by omega) hab rfl).tail ⟨ha, hx⟩

end IsLoop

end Flow

end LuaLift
