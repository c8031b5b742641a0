import LuaLift.Proofs.Proto.Shape
import LuaLift.Proofs.Renumber.Graph

namespace LuaLift

namespace Jump

@[simp] theorem condition?_map (f : BlockId → BlockId) (j : Jump) : (j.map f).condition? = j.condition? := by
  cases j <;> rfl

@[simp] theorem reads_map (f : BlockId → BlockId) (kind : CellKind) (j : Jump) :
    (j.map f).reads kind = j.reads kind := by
  rw [reads, reads, condition?_map]

theorem mapCondition_map (f : BlockId → BlockId) (g : Expr → Expr) (j : Jump) :
    (j.map f).mapCondition g = (j.mapCondition g).map f := by
  cases j <;> rfl

end Jump

def Block.renumber (π : Equiv.Perm Nat) (b : Block) : Block :=
  { b with id := π b.id, jump := b.jump.map π }

namespace Proto

/-- The second function is the first one with other numbers for the blocks. -/
structure Renumbers (π : Equiv.Perm Nat) (p q : Proto) : Prop where
  entry : 0 < p.blocks.length
  numbered : p.Numbered
  zero : π 0 = 0
  fixes : ∀ b, p.blocks.length ≤ b → π b = b
  blocks : ∀ b, q.blocks[π b]? = p.blocks[b]?.map (Block.renumber π)
  apart : q = { p with blocks := q.blocks }

namespace Renumbers

variable {π : Equiv.Perm Nat} {p q : Proto} (hr : p.Renumbers π q)
include hr

theorem lt_length_iff {b : BlockId} : π b < p.blocks.length ↔ b < p.blocks.length := by
  constructor
  · intro hb
    apply Nat.lt_of_not_le
    intro hle
    rw [hr.fixes b hle] at hb
    exact Nat.not_lt.2 hle hb
  · intro hb
    apply Nat.lt_of_not_le
    intro hle
    rw [π.injective (hr.fixes (π b) hle)] at hle
    exact Nat.not_lt.2 hle hb

theorem length : q.blocks.length = p.blocks.length := by
  have hlt (i : Nat) : i < q.blocks.length ↔ i < p.blocks.length := by
    obtain ⟨b, rfl⟩ := π.surjective i
    have hsome : q.blocks[π b]?.isSome = p.blocks[b]?.isSome := by rw [hr.blocks, Option.isSome_map]
    rw [Bool.eq_iff_iff] at hsome
    simpa [hr.lt_length_iff] using hsome
  apply Nat.le_antisymm
  · exact Nat.le_of_not_lt fun h => absurd ((hlt _).1 h) (Nat.lt_irrefl _)
  · exact Nat.le_of_not_lt fun h => absurd ((hlt _).2 h) (Nat.lt_irrefl _)

theorem numbered_after : q.Numbered := by
  intro i b hb
  obtain ⟨a, rfl⟩ := π.surjective i
  rw [hr.blocks, Option.map_eq_some_iff] at hb
  obtain ⟨c, hc, rfl⟩ := hb
  rw [Block.renumber, hr.numbered _ _ hc]

theorem symm : q.Renumbers π.symm p where
  entry := hr.length ▸ hr.entry
  numbered := hr.numbered_after
  zero := π.symm_apply_eq.2 hr.zero.symm
  fixes b hb := π.symm_apply_eq.2 (hr.fixes b (hr.length ▸ hb)).symm
  blocks b := by
    obtain ⟨a, rfl⟩ := π.surjective b
    rw [hr.blocks, π.symm_apply_apply, Option.map_map]
    cases p.blocks[a]? with
    | none => rfl
    | some c =>
      obtain ⟨id, first, last, body, jump⟩ := c
      cases jump <;> simp [Block.renumber, Jump.map]
  apart := by
    obtain ⟨id, parameters, variadic, blocks, debugNames, children⟩ := p
    rw [hr.apart]

theorem body (b : BlockId) : q.body (π b) = p.body b := by
  rw [Proto.body, Proto.body, hr.blocks]
  cases p.blocks[b]? <;> rfl

theorem jump (b : BlockId) : q.jump (π b) = (p.jump b).map π := by
  rw [Proto.jump, Proto.jump, hr.blocks]
  cases p.blocks[b]? <;> rfl

theorem mem_blocks {c : Block} : c ∈ q.blocks ↔ ∃ b ∈ p.blocks, b.renumber π = c := by
  simp only [List.mem_iff_getElem?]
  rw [π.surjective.exists]
  simp only [hr.blocks, Option.map_eq_some_iff]
  constructor
  · rintro ⟨i, b, hb, rfl⟩
    exact ⟨b, ⟨i, hb⟩, rfl⟩
  · rintro ⟨b, ⟨i, hb⟩, rfl⟩
    exact ⟨i, b, hb, rfl⟩

theorem perm : q.blocks.Perm (p.blocks.map (Block.renumber π)) := by
  have hq : q.blocks.Nodup := .of_map (·.id) (hr.numbered_after.map_id ▸ List.nodup_range)
  have hp : (p.blocks.map (Block.renumber π)).Nodup := by
    apply List.Nodup.of_map (·.id)
    have : (p.blocks.map (Block.renumber π)).map (·.id) = (p.blocks.map (·.id)).map π := by
      simp [Block.renumber]
    rw [this, hr.numbered.map_id]
    exact List.nodup_range.map π.injective
  apply (List.perm_ext_iff_of_nodup hq hp).2
  intro c
  rw [hr.mem_blocks, List.mem_map]

theorem rooted : (Flow.of p).Rooted := ⟨p.inRange_digraph, Nat.lt_of_lt_of_eq hr.entry size_flow.symm⟩

theorem flow : (Flow.of p).Renumbers π (.of q) where
  graph :=
    { size := size_flow.trans (hr.length.trans size_flow.symm)
      fixes b hb := hr.fixes b (Nat.le_trans (Nat.le_of_eq size_flow.symm) hb)
      succ b := by
        have hsucc : (Flow.of q).successors (π b) = ((Flow.of p).successors b).map π := by
          rw [hr.numbered_after.successors, hr.numbered.successors, hr.jump, Jump.targets_map, hr.length]
          apply filter_map_congr
          intro t _
          exact decide_eq_decide.2 hr.lt_length_iff
        exact hsucc }
  zero := hr.zero

theorem parameters : q.parameters = p.parameters := by rw [hr.apart]

theorem children : q.children = p.children := by rw [hr.apart]

theorem wellShaped (hp : p.WellShaped) : q.WellShaped where
  nonempty := hr.symm.entry
  numbered := hr.numbered_after _ _
  inside hb t ht := by
    obtain ⟨b, hm, rfl⟩ := hr.mem_blocks.1 hb
    rw [Block.renumber, Jump.targets_map] at ht
    obtain ⟨u, hu, rfl⟩ := List.mem_map.1 ht
    rw [hr.length, hr.lt_length_iff]
    exact hp.inside hm u hu
  returns hb l r s he hs := by
    obtain ⟨b, hm, rfl⟩ := hr.mem_blocks.1 hb
    obtain ⟨hlast, ht⟩ := hp.returns hm he hs
    exact ⟨hlast, by rw [Block.renumber, Jump.targets_map, ht, List.map_nil]⟩
  undeclared hb := by
    obtain ⟨b, hm, rfl⟩ := hr.mem_blocks.1 hb
    intro s hs
    exact hp.undeclared hm s hs

theorem ancestors (b : BlockId) : ancestors (.of q) (π b) = (ancestors (.of p) b).map π := by
  rw [Proto.ancestors, Proto.ancestors, hr.flow.predecessors]
  exact (hr.flow.predecessorGraph.walkIn hr.flow.graph.range_perm _).1

theorem mayBeDefined (as : List BlockId) : q.mayBeDefined (as.map π) = p.mayBeDefined as := by
  funext s
  simp [Proto.mayBeDefined, hr.parameters, hr.body, Function.comp_def]

theorem undefinedSlot? :
    q.undefinedSlot? (.of q) = (p.undefinedSlot? (.of p)).map fun e => (π e.1, e.2) := by
  rw [Proto.undefinedSlot?, Proto.undefinedSlot?, hr.flow.order, List.findSome?_map, List.map_findSome?]
  congr 1
  funext b
  simp only [Function.comp_apply, hr.ancestors, hr.mayBeDefined, hr.body, hr.jump, Jump.reads_map, Option.map_map]
  rfl

theorem violation?_eq_none (hp : p.violation? = none) : q.violation? = none := by
  obtain ⟨hw, hu⟩ := violation?_eq_none_iff.1 hp
  exact violation?_eq_none_iff.2 ⟨hr.wellShaped hw, by rw [hr.undefinedSlot?, hu, Option.map_none]⟩

theorem prototypeViolation?_eq_none (hp : p.prototypeViolation? = none) : q.prototypeViolation? = none := by
  rw [prototypeViolation?, List.findSome?_eq_none_iff] at hp ⊢
  intro c hc
  obtain ⟨b, hb, rfl⟩ := hr.mem_blocks.1 hc
  have := hp b hb
  rw [Option.map_eq_none_iff] at this ⊢
  rwa [hr.children]

end Renumbers

end Proto

end LuaLift
