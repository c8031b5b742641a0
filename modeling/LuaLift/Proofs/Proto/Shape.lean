import LuaLift.Proto.Check
import LuaLift.Proofs.Flow.Reducible

namespace LuaLift

open Relation

/-- Numbered blocks with jumps to blocks, where a `return` ends a block that leaves. -/
structure Proto.WellShaped (p : Proto) : Prop where
  nonempty : 0 < p.blocks.length
  numbered : ∀ {i : Nat} {b : Block}, p.blocks[i]? = some b → b.id = i
  inside : ∀ {b : Block}, b ∈ p.blocks → ∀ t ∈ b.jump.targets, t < p.blocks.length
  returns : ∀ {b : Block}, b ∈ p.blocks → ∀ {l r : List Stmt} {s : Stmt}, b.body = l ++ s :: r →
    s.isReturn = true → r = [] ∧ b.jump.targets = []
  undeclared : ∀ {b : Block}, b ∈ p.blocks → ∀ s ∈ b.body, s.isDeclaration = false

theorem Jump.targets_map (f : BlockId → BlockId) (j : Jump) : (j.map f).targets = j.targets.map f := by
  cases j <;> rfl

theorem Block.returns_of_violation {n : Nat} {b : Block} (h : b.returnViolation? n = none)
    {l r : List Stmt} {s : Stmt} (hb : b.body = l ++ s :: r) (hs : s.isReturn = true) :
    r = [] ∧ b.jump.targets = [] := by
  unfold returnViolation? at h
  cases hi : b.body.findIdx? Stmt.isReturn with
  | none =>
    have := List.findIdx?_eq_none_iff.1 hi s (by simp [hb])
    rw [hs] at this
    cases this
  | some i =>
    obtain ⟨hlt, -, hmin⟩ := List.findIdx?_eq_some_iff_getElem.1 hi
    rw [hi] at h
    simp only [Option.bind_some] at h
    split at h
    · cases h
    · next hlast =>
      split at h
      · next ht =>
        refine ⟨?_, List.isEmpty_iff.1 ht⟩
        have hil : i ≤ l.length := by
          refine Nat.le_of_not_lt fun hl => hmin l.length hl ?_
          simp [hb, hs]
        have := congrArg List.length hb
        simp only [List.length_append, List.length_cons] at this
        exact List.eq_nil_of_length_eq_zero (by omega)
      · cases h

theorem Block.returnViolation?_eq_none {n : Nat} {b : Block} (h : ∀ {l r : List Stmt} {s : Stmt},
    b.body = l ++ s :: r → s.isReturn = true → r = [] ∧ b.jump.targets = []) :
    b.returnViolation? n = none := by
  unfold returnViolation?
  cases hi : b.body.findIdx? Stmt.isReturn with
  | none => rfl
  | some i =>
    obtain ⟨hlt, hs, -⟩ := List.findIdx?_eq_some_iff_getElem.1 hi
    have hb : b.body = b.body.take i ++ b.body[i] :: b.body.drop (i + 1) := by simp
    obtain ⟨hr, ht⟩ := h hb hs
    have hlen : i + 1 = b.body.length := by
      have := List.drop_eq_nil_iff.1 hr
      omega
    simp [hlen, ht]

namespace Proto

theorem wellShaped_of_structuralViolation {p : Proto} (hs : p.structuralViolation? = none) : p.WellShaped := by
  unfold structuralViolation? at hs
  split at hs
  · cases hs
  · next hne =>
    have hb {i : Nat} {b : Block} (hi : p.blocks[i]? = some b) :
        b.violation? p.blocks.length i = none := by
      have := List.findSome?_eq_none_iff.1 hs (b, i) (List.mem_zipIdx_iff_getElem?.2 hi)
      exact this
    have parts {i : Nat} {b : Block} (hi : p.blocks[i]? = some b) :
        b.id = i ∧ (∀ t ∈ b.jump.targets, t < p.blocks.length) ∧
          b.returnViolation? i = none ∧ ∀ s ∈ b.body, s.isDeclaration = false := by
      have := hb hi
      unfold Block.violation? at this
      split at this
      · cases this
      · next hid =>
        simp only [Option.orElse_eq_orElse, Option.orElse_eq_or, Option.or_eq_none_iff,
          Option.map_eq_none_iff, List.find?_eq_none, decide_eq_true_eq, Nat.not_le] at this
        refine ⟨Decidable.not_not.1 hid, this.1, this.2.1, ?_⟩
        have hd := this.2.2
        split at hd
        · cases hd
        · next hn => simpa using hn
    refine ⟨?_, fun hi => (parts hi).1, fun hb => ?_, fun hb _ _ _ he hr => ?_, fun hb => ?_⟩
    · simpa [List.length_pos_iff] using hne
    · obtain ⟨i, hi⟩ := List.mem_iff_getElem?.1 hb
      exact (parts hi).2.1
    · obtain ⟨i, hi⟩ := List.mem_iff_getElem?.1 hb
      exact Block.returns_of_violation (parts hi).2.2.1 he hr
    · obtain ⟨i, hi⟩ := List.mem_iff_getElem?.1 hb
      exact (parts hi).2.2.2

theorem wellShaped_of_violation {p : Proto} (h : p.violation? = none) : p.WellShaped := by
  apply wellShaped_of_structuralViolation
  unfold violation? at h
  cases hs : p.structuralViolation? with
  | none => rfl
  | some v => rw [hs] at h; cases h

theorem WellShaped.structuralViolation? {p : Proto} (hp : p.WellShaped) : p.structuralViolation? = none := by
  unfold Proto.structuralViolation?
  rw [if_neg (by simpa [List.length_pos_iff] using hp.nonempty), List.findSome?_eq_none_iff]
  rintro ⟨b, i⟩ hb
  replace hb : p.blocks[i]? = some b := List.mem_zipIdx_iff_getElem?.1 hb
  have hmem := List.mem_of_getElem? hb
  have hdangling : b.jump.targets.find? (p.blocks.length ≤ ·) = none := by
    simpa [List.find?_eq_none] using hp.inside hmem
  have hundeclared : b.body.any Stmt.isDeclaration = false := by simpa using hp.undeclared hmem
  simp only [Block.violation?, hp.numbered hb, ne_eq, not_true_eq_false, if_false, hdangling,
    Block.returnViolation?_eq_none (hp.returns hmem), hundeclared]
  rfl

theorem violation?_eq_none_iff {p : Proto} :
    p.violation? = none ↔ p.WellShaped ∧ p.undefinedSlot? (.of p) = none := by
  constructor
  · intro h
    have hp := wellShaped_of_violation h
    rw [violation?, hp.structuralViolation?] at h
    exact ⟨hp, Option.map_eq_none_iff.1 h⟩
  · rintro ⟨hp, h⟩
    rw [violation?, hp.structuralViolation?, h]
    rfl

theorem WellShaped.map_blocks {p q : Proto} (hp : p.WellShaped) {g : Block × BlockId → Block}
    (hq : q.blocks = p.blocks.zipIdx.map g) (hid : ∀ e, (g e).id = e.1.id)
    (htargets : ∀ e, (g e).jump.targets = e.1.jump.targets)
    (hreturns : ∀ e, (g e).body.map Stmt.isReturn = e.1.body.map Stmt.isReturn)
    (hdeclarations : ∀ e, (g e).body.map Stmt.isDeclaration = e.1.body.map Stmt.isDeclaration) : q.WellShaped := by
  have hlength : q.blocks.length = p.blocks.length := by simp [hq]
  have source {c : Block} (hc : c ∈ q.blocks) : ∃ e, e.1 ∈ p.blocks ∧ c = g e := by
    rw [hq] at hc
    obtain ⟨e, he, rfl⟩ := List.mem_map.1 hc
    exact ⟨e, List.mem_of_getElem? (List.mem_zipIdx_iff_getElem?.1 he), rfl⟩
  refine ⟨hlength ▸ hp.nonempty, ?_, ?_, ?_, ?_⟩
  · intro i c hc
    simp only [hq, List.getElem?_map, List.getElem?_zipIdx, Option.map_map, Option.map_eq_some_iff] at hc
    obtain ⟨b, hb, rfl⟩ := hc
    rw [← hp.numbered hb]
    exact hid _
  · intro c hc t ht
    obtain ⟨e, he, rfl⟩ := source hc
    rw [htargets] at ht
    exact hlength ▸ hp.inside he t ht
  · intro c hc l r s hbody hs
    obtain ⟨e, he, rfl⟩ := source hc
    have hmap := hreturns e
    rw [hbody, List.map_append, List.map_cons] at hmap
    obtain ⟨l', r', hb', -, hr⟩ := List.map_eq_append_iff.1 hmap.symm
    obtain ⟨s', r', rfl, hs', hr⟩ := List.map_eq_cons_iff.1 hr
    obtain ⟨rfl, htarget⟩ := hp.returns he hb' (hs'.trans hs)
    exact ⟨List.map_eq_nil_iff.1 hr.symm, (htargets e).trans htarget⟩
  · intro c hc s hs
    obtain ⟨e, he, rfl⟩ := source hc
    have hmem : s.isDeclaration ∈ (g e).body.map Stmt.isDeclaration := List.mem_map_of_mem hs
    rw [hdeclarations] at hmem
    obtain ⟨s', hs', heq⟩ := List.mem_map.1 hmem
    rw [← heq]
    exact hp.undeclared he s' hs'

theorem with_blocks {p : Proto} {blocks : List Block} (h : blocks = p.blocks) : { p with blocks } = p := by
  subst h
  cases p
  rfl

section Flow

variable {p : Proto}

def Numbered (p : Proto) : Prop := ∀ (i : Nat) (b : Block), p.blocks[i]? = some b → b.id = i

theorem size_flow : (Flow.of p).size = p.blocks.length := by
  simp [Flow.of, Flow.ofDigraph, Flow.size, digraph, Digraph.size]

theorem inRange_digraph (p : Proto) : (Flow.of p).graph.InRange := by
  intro a b hb
  simp only [Flow.of, Flow.ofDigraph, Digraph.succ, digraph, List.getElem?_map] at hb
  cases ha : (List.range p.blocks.length)[a]? with
  | none => simp [ha] at hb
  | some c =>
    simp only [ha, Option.map_some, Option.getD_some, List.mem_filter, decide_eq_true_eq] at hb
    exact Nat.lt_of_lt_of_eq hb.2 size_flow.symm

theorem flow_map {q : Proto} {g : Block → Block} (hq : q.blocks = p.blocks.map g) (hid : ∀ b, (g b).id = b.id)
    (htargets : ∀ b, (g b).jump.targets = b.jump.targets) : Flow.of q = Flow.of p := by
  have hdigraph : q.digraph = p.digraph := by
    simp only [digraph, hq, List.length_map, ← List.map_reverse, List.find?_map, Option.map_map, Function.comp_def,
      hid, htargets]
  rw [Flow.of, hdigraph, Flow.of]

theorem Numbered.find_id (hp : p.Numbered) (b : BlockId) :
    p.blocks.reverse.find? (·.id = b) = p.blocks[b]? := by
  cases hf : p.blocks.reverse.find? (·.id = b) with
  | none =>
    cases hb : p.blocks[b]? with
    | none => rfl
    | some c =>
      have hc : c ∈ p.blocks.reverse := List.mem_reverse.2 (List.mem_of_getElem? hb)
      have := List.find?_eq_none.1 hf c hc
      simp [hp b c hb] at this
  | some c =>
    obtain ⟨i, hi⟩ := List.mem_iff_getElem?.1 (List.mem_reverse.1 (List.mem_of_find?_eq_some hf))
    have hid := List.find?_some hf
    simp only [hp i c hi, decide_eq_true_eq] at hid
    rw [← hid, hi]

theorem body_of_getElem? {b : BlockId} {block : Block} (h : p.blocks[b]? = some block) : p.body b = block.body := by
  rw [body, h, Option.map_some, Option.getD_some]

theorem jump_of_getElem? {b : BlockId} {block : Block} (h : p.blocks[b]? = some block) : p.jump b = block.jump := by
  rw [jump, h, Option.map_some, Option.getD_some]

theorem Numbered.map_id (hp : p.Numbered) : p.blocks.map (·.id) = List.range p.blocks.length := by
  refine List.ext_getElem? fun i => ?_
  rw [List.getElem?_map]
  cases hi : p.blocks[i]? with
  | none => simpa [eq_comm] using hi
  | some b =>
    have hlt := (List.getElem?_eq_some_iff.1 hi).1
    rw [Option.map_some, hp i b hi, List.getElem?_range hlt]

theorem Numbered.successors (hp : p.Numbered) (b : BlockId) :
    (Flow.of p).successors b = (p.jump b).targets.filter (· < p.blocks.length) := by
  simp only [Flow.of, Flow.ofDigraph, Flow.successors, Digraph.succ, digraph, List.getElem?_map]
  by_cases hb : b < p.blocks.length
  · simp only [List.getElem?_range hb, Option.map_some, Option.getD_some, hp.find_id]
    have : (p.blocks[b]?.map (·.jump.targets)).getD [] = (p.jump b).targets := by
      unfold jump
      cases p.blocks[b]? <;> rfl
    rw [this]
  · have hj : p.blocks[b]? = none := by simpa using hb
    have hn : (List.range p.blocks.length)[b]? = none := by simpa using hb
    rw [hn, jump, hj]
    rfl

variable (hp : p.WellShaped)
include hp

theorem WellShaped.targets_lt {b t : BlockId} (ht : t ∈ (p.jump b).targets) : t < p.blocks.length := by
  unfold jump at ht
  cases hb : p.blocks[b]? with
  | none => simp [hb, Jump.targets] at ht
  | some c =>
    rw [hb] at ht
    exact hp.inside (List.mem_of_getElem? hb) t ht

theorem WellShaped.returns_body {b : BlockId} {l r : List Stmt} {s : Stmt} (hb : p.body b = l ++ s :: r)
    (hs : s.isReturn = true) : r = [] ∧ (p.jump b).targets = [] := by
  unfold body at hb
  cases hi : p.blocks[b]? with
  | none => simp [hi] at hb
  | some c =>
    rw [hi] at hb
    have := hp.returns (List.mem_of_getElem? hi) hb hs
    simpa [jump, hi] using this

theorem WellShaped.successors (b : BlockId) : (Flow.of p).successors b = (p.jump b).targets := by
  rw [Numbered.successors fun _ _ => hp.numbered, List.filter_eq_self]
  exact fun t ht => decide_eq_true (hp.targets_lt ht)

omit hp in
theorem rooted_of_isReachable {b : BlockId} (hb : (Flow.of p).isReachable b = true) : (Flow.of p).Rooted := by
  refine ⟨p.inRange_digraph, Nat.pos_of_ne_zero fun h0 => ?_⟩
  rw [Flow.isReachable, List.contains_eq_mem, decide_eq_true_eq, (Flow.of p).walk_eq, Digraph.walkFrom,
    Digraph.mem_walkIn] at hb
  obtain ⟨r, -, hr, -⟩ := hb
  simp [h0] at hr

theorem WellShaped.root_lt : 0 < (Flow.of p).graph.size :=
  Nat.lt_of_lt_of_eq hp.nonempty size_flow.symm

theorem WellShaped.rooted : (Flow.of p).Rooted := ⟨p.inRange_digraph, hp.root_lt⟩

theorem WellShaped.isReachable_iff {b : BlockId} :
    (Flow.of p).isReachable b = true ↔ (Flow.of p).graph.Reaches 0 b := by
  rw [Flow.isReachable, List.contains_eq_mem, decide_eq_true_eq, (Flow.of p).walk_eq,
    Digraph.mem_walkFrom p.inRange_digraph hp.root_lt]

theorem WellShaped.isReachable_zero : (Flow.of p).isReachable 0 = true :=
  hp.isReachable_iff.2 .refl

theorem WellShaped.isReachable_target {b t : BlockId} (hb : (Flow.of p).isReachable b = true)
    (ht : t ∈ (p.jump b).targets) : (Flow.of p).isReachable t = true := by
  refine hp.isReachable_iff.2 ((hp.isReachable_iff.1 hb).tail ?_)
  rw [← hp.successors] at ht
  exact ht

@[elab_as_elim]
theorem WellShaped.reachable_induction {motive : ∀ b, (Flow.of p).isReachable b = true → Prop}
    (zero : motive 0 hp.isReachable_zero)
    (target : ∀ a t (ha : (Flow.of p).isReachable a = true) (ht : t ∈ (p.jump a).targets),
      motive a ha → motive t (hp.isReachable_target ha ht))
    {b : BlockId} (hb : (Flow.of p).isReachable b = true) : motive b hb := by
  have hreach := hp.isReachable_iff.1 hb
  induction hreach with
  | refl => exact zero
  | @tail a t ha ht ih =>
    refine target a t (hp.isReachable_iff.2 ha) ?_ (ih (hp.isReachable_iff.2 ha))
    rw [← hp.successors]
    exact ht

theorem WellShaped.lt_of_isReachable {b : BlockId} (hb : (Flow.of p).isReachable b = true) :
    b < p.blocks.length := by
  rcases Relation.ReflTransGen.cases_tail (hp.isReachable_iff.1 hb) with rfl | ⟨a, -, ha⟩
  · exact hp.nonempty
  · exact Nat.lt_of_lt_of_eq (p.inRange_digraph a b ha) size_flow

theorem WellShaped.mem_predecessors {a b : BlockId} : a ∈ (Flow.of p).predecessors b ↔
    (Flow.of p).isReachable a = true ∧ b ∈ (p.jump a).targets := by
  simp [Flow.predecessors, Flow.mem_order, hp.successors]

end Flow

end Proto

end LuaLift
