import LuaLift.Proofs.Proto.Accepted
import Mathlib

/-!
Where statements are once the jumps are simplified: each block of the result holds a chain of blocks of the
function, and no block is in two chains. It ends with the last address of its chain, but starts where the first
block did. A debug name that covers a block of the chain is kept unless it stops before that address.
-/

namespace LuaLift

structure Block.Gathers (c : Block) (chain : List Block) : Prop where
  body : c.body = chain.flatMap (·.body)
  first : ∀ h ∈ chain.head?, c.firstAddress = h.firstAddress
  last : ∀ x ∈ chain, x.lastAddress ≤ c.lastAddress

namespace Block.Gathers

variable {b c h x : Block} {chain rest : List Block}

theorem self (c : Block) : c.Gathers [c] where
  body := by simp
  first h hh := by
    cases hh
    rfl
  last x hx := by rw [List.mem_singleton.1 hx]

theorem congr (hc : c.Gathers chain) (hbody : b.body = c.body) (hfirst : b.firstAddress = c.firstAddress)
    (hlast : b.lastAddress = c.lastAddress) : b.Gathers chain where
  body := hbody.trans hc.body
  first h hh := hfirst.trans (hc.first h hh)
  last x hx := hlast ▸ hc.last x hx

theorem append (hc : c.Gathers chain) (hx : x.Gathers rest) (hchain : chain ≠ []) (hbody : b.body = c.body ++ x.body)
    (hfirst : b.firstAddress = c.firstAddress) (hlast : b.lastAddress = max c.lastAddress x.lastAddress) :
    b.Gathers (chain ++ rest) where
  body := by rw [hbody, hc.body, hx.body, List.flatMap_append]
  first h hh := by
    rw [List.head?_append_of_ne_nil _ hchain] at hh
    exact hfirst.trans (hc.first h hh)
  last y hy := by
    rw [hlast]
    rcases List.mem_append.1 hy with hy | hy
    · exact Nat.le_trans (hc.last y hy) (Nat.le_max_left _ _)
    · exact Nat.le_trans (hx.last y hy) (Nat.le_max_right _ _)

theorem covers_iff (hc : c.Gathers chain) (hh : h ∈ chain.head?) (hx : x ∈ chain) {d : DebugName}
    (hd : d.covers x = true) : d.covers c = true ↔ h.firstAddress < d.stop := by
  simp only [DebugName.covers, Bool.and_eq_true, decide_eq_true_eq] at hd ⊢
  rw [hc.first h hh]
  exact and_iff_left (Nat.le_trans hd.2 (hc.last x hx))

end Block.Gathers

namespace Proto

variable {p q : Proto} {chain : BlockId → List Block}

/-- The blocks of a function regrouped: each block of the other one holds a chain of them. -/
structure Regroups (p q : Proto) (chain : BlockId → List Block) : Prop where
  names : q.debugNames = p.debugNames
  gathers : ∀ {i : Nat} {c : Block}, q.blocks[i]? = some c → c.Gathers (chain i)
  leaves : ∀ {i : Nat} {c : Block}, q.blocks[i]? = some c → chain i = [] → c.jump = .leave
  mem : ∀ i < q.blocks.length, ∀ b ∈ chain i, b ∈ p.blocks
  nodup : ∀ i < q.blocks.length, (chain i).Nodup
  apart : ∀ i < q.blocks.length, ∀ j < q.blocks.length, i ≠ j → (chain i).Disjoint (chain j)

def joinedChains (chain : BlockId → List Block) (b t i : BlockId) : List Block :=
  if i = b then chain b ++ chain t else if i = t then [] else chain i

theorem mem_joinedChains {n : Nat} {b t i : BlockId} (hb : b < n) (ht : t < n) (hi : i < n) {x : Block}
    (hx : x ∈ joinedChains chain b t i) : ∃ k < n, x ∈ chain k ∧ i = if k = t then b else k := by
  rw [joinedChains] at hx
  split at hx
  · next hib =>
    rcases List.mem_append.1 hx with hx | hx
    · exact ⟨b, hb, hx, by rw [ite_self, hib]⟩
    · exact ⟨t, ht, hx, by rw [if_pos rfl, hib]⟩
  · split at hx
    · cases hx
    · next hit => exact ⟨i, hi, hx, by rw [if_neg hit]⟩

namespace Regroups

theorem refl (hp : p.WellShaped) : p.Regroups p fun i => p.blocks[i]?.toList where
  names := rfl
  gathers {i c} hi := by simpa [hi] using Block.Gathers.self c
  leaves {i c} hi he := by simp [hi] at he
  mem i _ b hb := List.mem_of_getElem? (Option.mem_toList.1 hb)
  nodup i _ := Option.toList_nodup _
  apart i _ j _ hij b hi hj :=
    hij ((hp.numbered (Option.mem_toList.1 hi)).symm.trans (hp.numbered (Option.mem_toList.1 hj)))

theorem mapJumps (h : p.Regroups q chain) {f : Jump → Jump} (hf : f .leave = .leave) :
    p.Regroups (q.mapJumps f) chain := by
  have origin {i : Nat} {c : Block} (hc : (q.mapJumps f).blocks[i]? = some c) :
      ∃ x, q.blocks[i]? = some x ∧ { x with jump := f x.jump } = c := by
    rw [Proto.mapJumps, List.getElem?_map, Option.map_eq_some_iff] at hc
    exact hc
  have hlen : (q.mapJumps f).blocks.length = q.blocks.length := List.length_map _
  refine ⟨h.names, fun hc => ?_, fun hc he => ?_, hlen ▸ h.mem, hlen ▸ h.nodup, hlen ▸ h.apart⟩
  · obtain ⟨x, hx, rfl⟩ := origin hc
    exact (h.gathers hx).congr rfl rfl rfl
  · obtain ⟨x, hx, rfl⟩ := origin hc
    change f x.jump = .leave
    rw [h.leaves hx he, hf]

theorem join (h : p.Regroups q chain) (hq : q.WellShaped) {b t : BlockId} (hj : q.Joinable b t) :
    p.Regroups (q.join b t) (joinedChains chain b t) := by
  obtain ⟨x, hx⟩ := hj.exists_block hq
  obtain ⟨next, hn⟩ := hj.exists_next hq
  have hb := (List.getElem?_eq_some_iff.1 hx).1
  have ht := (List.getElem?_eq_some_iff.1 hn).1
  have hlen : (q.join b t).blocks.length = q.blocks.length := by simp [Proto.join, hn, modify]
  -- A block that jumps holds some chain, so the joined chain has the first block's head.
  have hchain : chain b ≠ [] := by
    intro he
    have hleave := h.leaves hx he
    have hjump := hj.jump
    rw [jump_of_getElem? hx, hleave] at hjump
    cases hjump
  refine ⟨?_, fun {i c} hc => ?_, fun {i c} hc he => ?_, fun i hi y hy => ?_, fun i hi => ?_, ?_⟩
  · rw [← h.names, Proto.join, hn]
    rfl
  · rw [getElem?_join hn hj.ne, Option.map_eq_some_iff] at hc
    obtain ⟨y, hy, rfl⟩ := hc
    rw [joinedChains]
    split
    · next hib =>
      subst hib
      cases hx.symm.trans hy
      exact (h.gathers hx).append (h.gathers hn) hchain rfl rfl rfl
    · split
      · exact ⟨rfl, by simp, by simp⟩
      · exact h.gathers hy
  · rw [getElem?_join hn hj.ne, Option.map_eq_some_iff] at hc
    obtain ⟨y, hy, rfl⟩ := hc
    rw [joinedChains] at he
    split at he
    · exact absurd (List.append_eq_nil_iff.1 he).1 hchain
    · next hib =>
      rw [if_neg hib]
      split
      · rfl
      · next hit =>
        rw [if_neg hit] at he
        exact h.leaves hy he
  · obtain ⟨k, hk, hy, -⟩ := mem_joinedChains hb ht (hlen ▸ hi) hy
    exact h.mem k hk y hy
  · rw [hlen] at hi
    rw [joinedChains]
    split
    · exact (h.nodup b hb).append (h.nodup t ht) (h.apart b hb t ht (Ne.symm hj.ne))
    · split
      · exact .nil
      · exact h.nodup i hi
  · intro i hi j hi' hij y hy hy'
    obtain ⟨k, hk, hyk, rfl⟩ := mem_joinedChains hb ht (hlen ▸ hi) hy
    obtain ⟨k', hk', hyk', rfl⟩ := mem_joinedChains hb ht (hlen ▸ hi') hy'
    exact h.apart k hk k' hk' (fun he => hij (he ▸ rfl)) hyk hyk'

theorem simplifyStep (h : p.Regroups q chain) (hq : q.WellShaped) :
    ∃ chain', p.Regroups q.simplifyStep.1 chain' := by
  have hthreaded : p.Regroups q.decideTests.1.threadJumps.1 chain := by
    rw [threadJumps_fst]
    exact (h.mapJumps rfl).mapJumps rfl
  have hshaped := hq.decideTests.threadJumps
  rcases joinFirst_cases q.decideTests.1.threadJumps.1 with he | ⟨b, t, hb, ht, he⟩
  · exact ⟨_, by simpa only [Proto.simplifyStep, he] using hthreaded⟩
  · exact ⟨_, by simpa only [Proto.simplifyStep, he] using hthreaded.join hshaped (hshaped.joinable hb ht)⟩

theorem compacted (h : p.Regroups q chain) (hq : q.WellShaped) :
    p.Regroups q.compacted fun j => chain (q.sourceId j) := by
  have origin {j : Nat} {c : Block} (hc : q.compacted.blocks[j]? = some c) :
      ∃ b, q.blocks[q.sourceId j]? = some b ∧ compactBlock (.of q) b = c := by
    obtain ⟨i, b, hi, hr, rfl, hb⟩ := (hq.getElem?_compact _).1 hc
    exact ⟨b, by rw [sourceId_compactId hr, hi], hb⟩
  have inside {j : Nat} (hj : j < q.compacted.blocks.length) : q.sourceId j < q.blocks.length := by
    obtain ⟨b, hb, rfl⟩ := hq.exists_compactId hj
    rw [sourceId_compactId hb]
    exact hq.lt_of_isReachable hb
  refine ⟨h.names, fun hc => ?_, fun hc he => ?_, fun j hj => h.mem _ (inside hj), fun j hj => h.nodup _ (inside hj),
    fun i hi j hj hij => h.apart _ (inside hi) _ (inside hj) fun he => hij ?_⟩
  · obtain ⟨b, hb, rfl⟩ := origin hc
    exact (h.gathers hb).congr rfl rfl rfl
  · obtain ⟨b, hb, rfl⟩ := origin hc
    change b.jump.map _ = .leave
    rw [h.leaves hb he]
    rfl
  · obtain ⟨a, ha, rfl⟩ := hq.exists_compactId hi
    obtain ⟨b, hb, rfl⟩ := hq.exists_compactId hj
    rw [sourceId_compactId ha, sourceId_compactId hb] at he
    rw [he]

end Regroups

/-- Simplification regroups the blocks of a function. A debug name that covers a block covers the one that holds
its statements afterwards exactly if it does not stop before the first block of the chain starts. -/
theorem simplify_regroups (hp : p.violation? = none) : ∃ chain, p.Regroups p.simplify.1 chain ∧
    ∀ (j : Nat) (c : Block), p.simplify.1.blocks[j]? = some c → ∀ h ∈ (chain j).head?, ∀ b ∈ chain j,
      ∀ d : DebugName, d.covers b = true → (d.covers c = true ↔ h.firstAddress < d.stop) := by
  have hloop := simplifyLoop_induct (P := fun q => q.WellShaped ∧ ∃ chain, p.Regroups q chain)
    (fun _ h => ⟨h.1.simplifyStep, h.2.elim fun _ hchain => hchain.simplifyStep h.1⟩) (2 * p.weight + 2)
    ⟨wellShaped_of_violation hp, _, .refl (wellShaped_of_violation hp)⟩
  obtain ⟨hshaped, chain, hchain⟩ := hloop
  have hregroups : ∃ chain, p.Regroups p.simplify.1 chain := by
    rw [Proto.simplify]
    rcases compact_cases (simplifyLoop (2 * p.weight + 2) p).1 with he | he <;> simp only [he]
    · exact ⟨chain, hchain⟩
    · exact ⟨_, hchain.compacted hshaped⟩
  obtain ⟨chain, hchain⟩ := hregroups
  exact ⟨chain, hchain, fun j c hc h hh b hb d hd => (hchain.gathers hc).covers_iff hh hb hd⟩

def backward : Proto :=
  { id := 0
    blocks := [
      ⟨0, 0, 1, [], .branch (.global "c") 3 1⟩,
      ⟨1, 2, 2, [.ret [] 0], .leave⟩,
      ⟨2, 3, 5, [.assign ⟨[.slot 0], [.boolean true], false, 0⟩, .call (.global "f") [.slot 0] 0, .ret [] 0], .leave⟩,
      ⟨3, 6, 7, [.call (.global "g") [] 0], .always 2⟩]
    debugNames := [⟨0, "x", 4, 6⟩] }

theorem backward_uncovered : backward.violation? = none ∧
    (backward.debugName? 0 <$> backward.blocks[2]?) = some (some ⟨0, "x", 4, 6⟩) ∧
      backward.simplify.1.body 2 = backward.body 3 ++ backward.body 2 ∧
      (backward.simplify.1.debugName? 0 <$> backward.simplify.1.blocks[2]?) = some none := by
  refine ⟨by cbv, by cbv, by cbv, by cbv⟩

end Proto

end LuaLift
