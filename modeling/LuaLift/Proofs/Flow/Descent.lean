import LuaLift.Proofs.Flow.DominatorTree
import LuaLift.Proofs.Flow.MergePoints
import LuaLift.Proofs.Proto.Shape
import Mathlib

/-!
Merge points by the paths they stand on. A descent follows the edges that do not return until none is left,
or stops at the source of one that returns. The merge point of a block is the next block on every descent
from it that no descent misses.
-/

namespace LuaLift

open Relation

namespace Flow

variable {f : Flow} {a b e m : BlockId}

def Ends (f : Flow) (b : BlockId) : Prop := (∀ c, ¬ f.Onward b c) ∨ ∃ c, f.Returns b c

/-- The blocks on a path along edges onward, from a block down to an end. -/
inductive Descent (f : Flow) : BlockId → List BlockId → Prop
  | stop {b : BlockId} (h : f.Ends b) : Descent f b [b]
  | step {a b : BlockId} {q : List BlockId} (h : f.Onward a b) (hq : Descent f b q) : Descent f a (a :: q)

def Unavoidable (f : Flow) (m b : BlockId) : Prop := m ≠ b ∧ ∀ q, f.Descent b q → m ∈ q

namespace Descent

theorem exists_eq_cons {q : List BlockId} (h : f.Descent b q) : ∃ r, q = b :: r := by
  cases h with
  | stop h => exact ⟨[], rfl⟩
  | step h hq => exact ⟨_, rfl⟩

theorem split {q : List BlockId} (h : f.Descent b q) (hm : m ∈ q) :
    ∃ u v, q = u ++ m :: v ∧ f.Descent m (m :: v) := by
  induction h with
  | stop h =>
    obtain rfl := List.mem_singleton.1 hm
    exact ⟨[], [], rfl, .stop h⟩
  | @step a b q h hq ih =>
    rcases List.mem_cons.1 hm with rfl | hm
    · exact ⟨[], q, rfl, .step h hq⟩
    · obtain ⟨u, v, rfl, hv⟩ := ih hm
      exact ⟨a :: u, v, rfl, hv⟩

theorem splice {u v r : List BlockId} (h : f.Descent b (u ++ m :: v)) (hr : f.Descent m r) :
    f.Descent b (u ++ r) := by
  induction u generalizing b with
  | nil =>
    obtain ⟨_, he⟩ := h.exists_eq_cons
    cases he
    exact hr
  | cons x u ih =>
    generalize hq : x :: u ++ m :: v = q at h
    cases h with
    | stop h => simp at hq
    | step h hq' =>
      cases hq
      exact .step h (ih hq')

end Descent

namespace Rooted

variable (hf : f.Rooted)
include hf

theorem mem_succ_size_iff_ends (hb : f.isReachable b = true) :
    b ∈ (f.reversed f.dominance).succ f.size ↔ f.Ends b := by
  rw [mem_succ_size, and_iff_right hb, Ends]
  refine or_congr ?_ ?_
  · simp only [List.eq_nil_iff_forall_not_mem, mem_forward, hf.onward_iff]
    exact forall_congr' fun c => not_congr ⟨fun h => ⟨hb, h.1, h.2⟩, fun h => ⟨h.edge, h.forward⟩⟩
  · rw [Ne, Flow.forward, List.length_filter_eq_length_iff, Classical.not_forall]
    simp only [hf.returns_iff, Classical.not_imp]
    exact exists_congr fun c => ⟨fun h => ⟨hb, h.1, by simpa using h.2⟩, fun h => ⟨h.edge, by simp [h.back]⟩⟩

theorem blocks_iff (hb : f.isReachable b = true) : f.Blocks m b ↔ ∀ q, f.Descent b q → m ∈ q := by
  have hsize : b ≠ f.size := Nat.ne_of_lt (hf.lt_size hb)
  have hreach : (f.reversed f.dominance).ReachesIn (· ≠ m) f.size b ↔ ∃ q, f.Descent b q ∧ m ∉ q := by
    constructor
    -- A path from the root of the reversed graph is a descent read from its end.
    · intro h
      clear hb
      induction h with
      | refl => exact absurd rfl hsize
      | @tail u v _ hv ih =>
        obtain ⟨huv, hvm⟩ := hv
        by_cases hu : u = f.size
        · subst hu
          have hv := (mem_succ_size.1 huv).1
          exact ⟨[v], .stop ((hf.mem_succ_size_iff_ends hv).1 huv), by simpa using hvm.symm⟩
        · have hlt : u < f.size := by
            have := Nat.lt_or_gt.1 hu
            refine this.resolve_right fun hgt => ?_
            rw [succ_reversed_of_size_lt hgt] at huv
            cases huv
          obtain ⟨q, hq, hm⟩ := ih hu
          exact ⟨v :: q, .step (hf.onward_iff.2 ((mem_succ_reversed hlt).1 huv)) hq, by simp [hvm.symm, hm]⟩
    · rintro ⟨q, hq, hm⟩
      clear hsize
      induction hq with
      | stop h => exact .single ⟨(hf.mem_succ_size_iff_ends hb).2 h, fun he => hm (he ▸ .head _)⟩
      | @step a b q h hq ih =>
        have hab := hf.onward_iff.1 h
        have hb' := hf.isReachable_successor hb hab.edge
        refine (ih hb' fun hmq => hm (.tail _ hmq)).tail ⟨(mem_succ_reversed (hf.lt_size hb')).2 hab, ?_⟩
        exact fun he => hm (he ▸ .head _)
  rw [Blocks, hreach]
  simp only [not_exists, not_and, Classical.not_not]

theorem unavoidable_iff (hb : f.isReachable b = true) : f.Unavoidable m b ↔ m ≠ b ∧ f.Blocks m b :=
  and_congr_right fun _ => (hf.blocks_iff hb).symm

variable (hr : f.Reducible)
include hr

theorem rank_le_of_descent {q : List BlockId} (h : f.Descent b q) : ∀ x ∈ q, f.rank x ≤ f.rank b := by
  induction h with
  | stop h => simp
  | step h hq ih =>
    have hlt := hf.rank_lt hr (hf.onward_iff.1 h)
    exact List.forall_mem_cons.2 ⟨Nat.le_refl _, fun x hx => Nat.le_trans (ih x hx) (Nat.le_of_lt hlt)⟩

theorem nodup_of_descent {q : List BlockId} (h : f.Descent b q) : q.Nodup := by
  induction h with
  | stop h => simp
  | step h hq ih =>
    have hlt := hf.rank_lt hr (hf.onward_iff.1 h)
    exact List.nodup_cons.2 ⟨fun ha => Nat.not_le.2 hlt (hf.rank_le_of_descent hr hq _ ha), ih⟩

theorem exists_descent (b : BlockId) : ∃ q, f.Descent b q := by
  induction hk : f.rank b using Nat.strongRecOn generalizing b with
  | _ k ih =>
    by_cases hb : ∃ c, f.Onward b c
    · obtain ⟨c, hc⟩ := hb
      obtain ⟨q, hq⟩ := ih _ (hk ▸ hf.rank_lt hr (hf.onward_iff.1 hc)) c rfl
      exact ⟨b :: q, .step hc hq⟩
    · exact ⟨[b], .stop (.inl (not_exists.1 hb))⟩

theorem blocks_iff_sublist (hb : f.isReachable b = true) (hm : f.Blocks m b) (hne : e ≠ m) :
    f.Blocks e m ↔ ∀ q, f.Descent b q → [m, e].Sublist q := by
  have hmr := hf.isReachable_of_blocks hr hm hb
  rw [hf.blocks_iff hmr]
  constructor
  · intro h q hq
    obtain ⟨u, v, rfl, hv⟩ := hq.split ((hf.blocks_iff hb).1 hm q hq)
    have hev := (List.mem_cons.1 (h _ hv)).resolve_left hne
    exact ((List.singleton_sublist.2 hev).cons_cons m).trans (List.sublist_append_right u _)
  · intro h r hr'
    obtain ⟨q, hq⟩ := hf.exists_descent hr b
    obtain ⟨u, v, rfl, -⟩ := hq.split ((hf.blocks_iff hb).1 hm q hq)
    have hmu : m ∉ u := fun hu =>
      (List.nodup_append.1 (hf.nodup_of_descent hr hq)).2.2 m hu m (.head _) rfl
    obtain ⟨s, t, hst, hs, ht⟩ := List.sublist_append_iff.1 (h _ (hq.splice hr'))
    cases s with
    | nil =>
      simp only [List.nil_append] at hst
      exact ht.subset (hst ▸ List.mem_cons_of_mem m (.head _))
    | cons x s =>
      have hx : x = m := by
        simp only [List.cons_append, List.cons.injEq] at hst
        exact hst.1.symm
      exact absurd (hs.subset (hx ▸ .head _)) hmu

theorem mergePoint_eq_some_iff_unavoidable (hb : f.isReachable b = true) :
    (f.mergePoints f.dominance)[b]?.join = some m ↔ f.Unavoidable m b ∧
      ∀ e, f.Unavoidable e b → e ≠ m → ∀ q, f.Descent b q → [m, e].Sublist q := by
  rw [hf.mergePoint_eq_some_iff hr, and_iff_right hb, hf.unavoidable_iff hb, ← and_assoc]
  refine and_congr_right fun ⟨hne, hm⟩ => ?_
  constructor
  · intro h e he hem
    obtain ⟨hen, he⟩ := (hf.unavoidable_iff hb).1 he
    exact (hf.blocks_iff_sublist hr hb hm hem).1 (h e he hen)
  · intro h e he hen
    by_cases hem : e = m
    · subst hem
      refine (hf.blocks_iff (hf.isReachable_of_blocks hr hm hb)).2 fun q hq => ?_
      obtain ⟨r, rfl⟩ := hq.exists_eq_cons
      exact .head _
    · exact (hf.blocks_iff_sublist hr hb hm hem).2 (h e ((hf.unavoidable_iff hb).2 ⟨hen, he⟩) hem)

theorem mergePoint_eq_none_iff (hb : f.isReachable b = true) :
    (f.mergePoints f.dominance)[b]?.join = none ↔ ∀ e, ¬ f.Unavoidable e b := by
  constructor
  · intro h e he
    obtain ⟨hne, he⟩ := (hf.unavoidable_iff hb).1 he
    have hs := f.size_lt_reversed
    have hdom := (hf.dominates_reversed_iff hr hb).2 (.inr he)
    obtain ⟨i, hi⟩ := Dominance.exists_immediate hf.inRange_reversed hs hdom hne
    have hei := ((Dominance.immediate?_eq_some_iff hf.inRange_reversed hs).1 hi).2.2 e hdom hne
    -- the end is dominated by itself alone
    have hsize : i ≠ f.size := by
      rintro rfl
      refine ((Dominance.dominates_iff hf.inRange_reversed hs).1 hei).2 ⟨?_, .refl⟩
      exact Ne.symm (Nat.ne_of_lt (hf.lt_size (hf.isReachable_of_blocks hr he hb)))
    have := hf.mergePoint_eq_some_iff_immediate?.2 ⟨hb, hi, hsize⟩
    rw [h] at this
    cases this
  · intro h
    refine Option.eq_none_iff_forall_ne_some.2 fun m hm => ?_
    exact h m ((hf.mergePoint_eq_some_iff_unavoidable hr hb).1 hm).1

end Rooted

end Flow

namespace Proto

variable {p : Proto} {b : BlockId}

/-- The merge point of a block is the first of the blocks that no descent from it misses, and there is none if
each other block is missed by one. -/
theorem mergePoint_first (hr : (Flow.of p).Reducible)
    (hb : (Flow.of p).isReachable b = true) :
    let f := Flow.of p
    let merge? := (f.mergePoints f.dominance)[b]?.join
    (∃ q, f.Descent b q) ∧ (∀ q, f.Descent b q → q.Nodup) ∧
      (∀ m, merge? = some m ↔ f.Unavoidable m b ∧
        ∀ e, f.Unavoidable e b → e ≠ m → ∀ q, f.Descent b q → [m, e].Sublist q) ∧
      (merge? = none ↔ ∀ e, ¬ f.Unavoidable e b) := by
  have hf := rooted_of_isReachable hb
  exact ⟨hf.exists_descent hr b, fun _ => hf.nodup_of_descent hr,
    fun _ => hf.mergePoint_eq_some_iff_unavoidable hr hb, hf.mergePoint_eq_none_iff hr hb⟩

def rejoining : Proto :=
  { id := 0
    blocks := [
      ⟨0, 0, 0, [], .branch (.global "a") 1 5⟩,
      ⟨1, 1, 1, [], .branch (.global "b") 2 3⟩,
      ⟨2, 2, 2, [.call (.global "f") [] 0], .always 4⟩,
      ⟨3, 3, 3, [.call (.global "g") [] 0], .always 4⟩,
      ⟨4, 4, 4, [], .branch (.global "c") 1 6⟩,
      ⟨5, 5, 5, [.call (.global "h") [] 0], .always 6⟩,
      ⟨6, 6, 6, [.ret [] 0], .leave⟩] }

theorem mergePoint_first_rejoining : (Flow.of rejoining).Reducible ∧ (Flow.of rejoining).isReachable 1 = true ∧
    (Flow.of rejoining).isReachable 0 = true ∧ (Flow.of rejoining).Unavoidable 4 1 ∧
      ∀ e, ¬ (Flow.of rejoining).Unavoidable e 0 := by
  have hr : (Flow.of rejoining).Reducible := by
    rw [Flow.Reducible]
    cbv
  have hone : (Flow.of rejoining).isReachable 1 = true := by cbv
  have hzero : (Flow.of rejoining).isReachable 0 = true := by cbv
  refine ⟨hr, hone, hzero, ?_, ?_⟩
  · exact (((mergePoint_first hr hone).2.2.1 4).1 (by cbv)).1
  · exact (mergePoint_first hr hzero).2.2.2.1 (by cbv)

end Proto

end LuaLift
