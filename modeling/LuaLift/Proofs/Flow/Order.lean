import LuaLift.Proofs.Flow.Acyclic
import LuaLift.Proofs.Flow.MergePoints

namespace LuaLift

open Relation

theorem Digraph.getLast?_walkFrom {g : Digraph} {root : Nat} (hr : root < g.size) :
    (g.walkFrom root).postorder.getLast? = some root := by
  have h := g.walks [] (List.range g.size) [root]
  rw [walkFrom, walkIn]
  generalize (g.walk [] (List.range g.size) [root]).val = w at h ⊢
  cases h with
  | back ht hw => cases ht
  | enter ht hu hv hw =>
    cases hw
    exact List.getLast?_concat
  | seen ht hu hw => exact absurd (List.mem_range.2 hr) hu

namespace Flow

variable {f : Flow} {a b d : BlockId} {i j : Nat}

def Recedes (f : Flow) (a b : BlockId) : Prop :=
  b ∈ f.successors a ∧ ∃ i j, f.position? a = some i ∧ f.position? b = some j ∧ j ≤ i

theorem position_add_rank (h : f.position? b = some i) : i + f.rank b + 1 = f.walk.postorder.length := by
  have hget := position?_eq_some_iff.1 h
  obtain ⟨hlt, -⟩ := List.getElem?_eq_some_iff.1 hget
  have hlen : i < f.walk.postorder.length := by simpa [order] using hlt
  rw [order, List.getElem?_reverse hlen] at hget
  obtain ⟨hlt', hget'⟩ := List.getElem?_eq_some_iff.1 hget
  have hnodup : f.walk.postorder.Nodup := (List.reverse_perm _).nodup_iff.1 f.nodup_order
  have hrank : f.rank b = f.walk.postorder.length - 1 - i := by
    rw [rank, ← hget']
    exact hnodup.idxOf_getElem _ hlt'
  omega

theorem mem_backEdges : (a, b) ∈ f.backEdges f.dominance ↔ f.BackEdge a b := by
  simp only [backEdges, List.mem_flatMap, List.mem_map, List.mem_filter, Prod.mk.injEq, mem_order]
  constructor
  · rintro ⟨_, ha, _, ⟨hb, hd⟩, rfl, rfl⟩
    exact ⟨ha, hb, hd⟩
  · intro h
    exact ⟨a, h.reachable, b, ⟨h.edge, h.back⟩, rfl, rfl⟩

namespace Rooted

variable (hf : f.Rooted)
include hf

theorem recedes_iff : f.Recedes a b ↔ f.isReachable a = true ∧ b ∈ f.successors a ∧ f.rank a ≤ f.rank b := by
  constructor
  · rintro ⟨hb, i, j, hi, hj, hle⟩
    have hranki := position_add_rank hi
    have hrankj := position_add_rank hj
    exact ⟨isReachable_of_position? hi, hb, by omega⟩
  · rintro ⟨ha, hb, hle⟩
    obtain ⟨i, hi⟩ := exists_position? ha
    obtain ⟨j, hj⟩ := exists_position? (hf.isReachable_successor ha hb)
    have hranki := position_add_rank hi
    have hrankj := position_add_rank hj
    exact ⟨hb, i, j, hi, hj, by omega⟩

theorem forward_of_recedes (h : f.Recedes a b) : ReflTransGen f.Forward b a := by
  obtain ⟨ha, hb, hle⟩ := hf.recedes_iff.1 h
  have hmem : a ∈ (f.graph.walkFrom 0).postorder := by
    rw [← f.walk_eq]
    simpa [isReachable] using ha
  rcases Digraph.walkFrom_ordered hf.inRange hmem hb with hret | hsub
  · obtain ⟨q, hq, hbq, -⟩ := Digraph.Trail.of_retreating (f.graph.walks [] _ _)
      (.inl ⟨rfl, fun _ h => List.mem_singleton.1 h⟩) hret
    exact hf.forward_along hq hbq
  · have hlt := idxOf_lt_of_sublist hsub Digraph.nodup_walkFrom
    rw [← f.walk_eq] at hlt
    exact absurd hlt (Nat.not_lt.2 hle)

variable (hr : f.Reducible)
include hr

theorem rank_le_of_dominates (h : f.dominance.dominates d b = true) : f.rank b ≤ f.rank d := by
  induction hk : f.walk.postorder.length - f.rank b using Nat.strongRecOn generalizing b with
  | _ k ih =>
    by_cases hbd : b = d
    · exact Nat.le_of_eq (congrArg f.rank hbd)
    · have hb : f.isReachable b = true := (hf.dominates_iff.1 h).1
      have hzero : b ≠ 0 := by
        rintro rfl
        exact hbd (hf.eq_zero_of_dominates h).symm
      -- one forward step up the dominator is still above
      obtain ⟨a, ha⟩ := hf.exists_forward hb hzero
      have hd := hf.dominates_source h ha.reachable ha.edge hbd
      have hlt := hf.rank_lt hr ha
      have hlen := rank_lt_length ha.reachable
      have hle := ih _ (by omega) hd rfl
      omega

theorem recedes_iff_backEdge : f.Recedes a b ↔ f.BackEdge a b := by
  rw [hf.recedes_iff]
  constructor
  · rintro ⟨ha, hb, hle⟩
    refine (forward_or_back ha hb).resolve_left fun h => ?_
    exact absurd (hf.rank_lt hr h) (Nat.not_lt.2 hle)
  · intro h
    exact ⟨h.reachable, h.edge, hf.rank_le_of_dominates hr h.back⟩

end Rooted

end Flow

namespace Proto

variable {p : Proto}

/-- Reverse postorder lists the blocks in reach, the entry first. Where an edge goes to no later block, a path
leads back along it; in a reducible graph these edges are the back edges. -/
theorem order_forward (hp : p.violation? = none) :
    let f := Flow.of p
    f.order.Nodup ∧ (∀ b, b ∈ f.order ↔ f.graph.Reaches 0 b) ∧ f.order.head? = some 0 ∧
      (∀ b i, f.position? b = some i ↔ f.order[i]? = some b) ∧
      (∀ a b, f.Recedes a b → f.graph.Reaches b a) ∧
      (∀ a b, (a, b) ∈ f.backEdges f.dominance ↔ f.Returns a b) ∧
      (f.sideEntry? f.dominance = none → ∀ a b, f.Recedes a b ↔ (a, b) ∈ f.backEdges f.dominance) := by
  intro f
  have hf : f.Rooted := (wellShaped_of_violation hp).rooted
  have hhead : f.order.head? = some 0 := by
    rw [Flow.order, List.head?_reverse, f.walk_eq]
    exact Digraph.getLast?_walkFrom hf.root_lt
  refine ⟨f.nodup_order, fun b => Flow.mem_order.trans hf.isReachable_iff, hhead,
    fun b i => Flow.position?_eq_some_iff, fun a b h => ?_, fun a b => ?_, fun hr a b => ?_⟩
  · exact Flow.reaches_of_forward (hf.forward_of_recedes h)
  · rw [Flow.mem_backEdges, hf.returns_iff]
  · rw [Flow.mem_backEdges, hf.recedes_iff_backEdge hr]

def scattered : Proto :=
  { id := 0
    blocks := [
      ⟨0, 0, 0, [], .branch (.global "a") 4 1⟩,
      ⟨1, 1, 1, [], .branch (.global "b") 3 2⟩,
      ⟨2, 2, 2, [.ret [] 0], .leave⟩,
      ⟨3, 3, 3, [.call (.global "f") [] 0], .always 1⟩,
      ⟨4, 4, 4, [.call (.global "g") [] 0], .always 2⟩] }

theorem order_forward_scattered : scattered.violation? = none ∧
    (∀ b, b ∈ [0, 1, 3, 4, 2] ↔ (Flow.of scattered).graph.Reaches 0 b) ∧
      (Flow.of scattered).Recedes 3 1 ∧ (Flow.of scattered).graph.Reaches 1 3 ∧
      ∀ a b, (Flow.of scattered).Recedes a b ↔ (a, b) ∈ [(3, 1)] := by
  have hviolation : scattered.violation? = none := by cbv
  have horder : (Flow.of scattered).order = [0, 1, 3, 4, 2] := by cbv
  have hback : (Flow.of scattered).backEdges (Flow.of scattered).dominance = [(3, 1)] := by cbv
  obtain ⟨-, hreach, -, -, hpath, -, hedges⟩ := order_forward hviolation
  have hiff := hedges (by cbv)
  rw [hback] at hiff
  rw [horder] at hreach
  have hrecedes := (hiff 3 1).2 (.head _)
  exact ⟨hviolation, hreach, hrecedes, hpath 3 1 hrecedes, hiff⟩

end Proto

end LuaLift
