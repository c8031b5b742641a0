import LuaLift.Proofs.Flow.Reducible
import LuaLift.Proofs.Proto.TestChain
import Mathlib

namespace LuaLift

open Machine Relation

namespace Test

variable {a b t : Test}

theorem conjoin?_isSome_iff : (a.conjoin? b).isSome = true ↔ a.onFalse ∈ b.jump.targets := by
  simp only [jump, Jump.targets, List.mem_cons, List.not_mem_nil, or_false]
  unfold conjoin?
  split
  · next he => simp [he]
  · next hne =>
    split
    · next he => simp [he]
    · next hne' => simp [Ne.symm hne, Ne.symm hne']

theorem disjoin?_isSome_iff : (a.disjoin? b).isSome = true ↔ a.onTrue ∈ b.jump.targets := by
  simp only [jump, Jump.targets, List.mem_cons, List.not_mem_nil, or_false]
  unfold disjoin?
  split
  · next he => simp [he]
  · next hne =>
    split
    · next he => simp [he]
    · next hne' => simp [Ne.symm hne, Ne.symm hne']

end Test

namespace Proto

variable {p q r : Proto} {head inner : BlockId} {a b t : Test}

/-- Two tests with two ways out each: the second one is made by an empty block that only the first one
leads to, and both have a target in common. -/
structure Foldable (p : Proto) (head inner : BlockId) (a b : Test) : Prop where
  reachable : (Flow.of p).isReachable head = true
  atHead : p.jump head = a.jump
  parts : a.onTrue ≠ a.onFalse
  empty : p.body inner = []
  atInner : p.jump inner = b.jump
  divides : b.onTrue ≠ b.onFalse
  ne : inner ≠ head
  ne_zero : inner ≠ 0
  only : ∀ c, (Flow.of p).isReachable c = true → inner ∈ (p.jump c).targets → c = head
  shares : a.onTrue = inner ∧ a.onFalse ∈ b.jump.targets ∨ a.onFalse = inner ∧ a.onTrue ∈ b.jump.targets

namespace Foldable

variable (h : p.Foldable head inner a b)
include h

theorem mem_targets : inner ∈ (p.jump head).targets := by
  rw [h.atHead]
  rcases h.shares with ⟨rfl, -⟩ | ⟨rfl, -⟩ <;> simp [Test.jump, Jump.targets]

theorem target_cases {u : BlockId} (hu : u ∈ (p.jump head).targets) : u = inner ∨ u ∈ b.jump.targets := by
  rw [h.atHead] at hu
  simp only [Test.jump, Jump.targets, List.mem_cons, List.not_mem_nil, or_false] at hu
  rcases h.shares with ⟨rfl, hs⟩ | ⟨rfl, hs⟩
  · rcases hu with rfl | rfl
    · exact .inl rfl
    · exact .inr hs
  · rcases hu with rfl | rfl
    · exact .inr hs
    · exact .inl rfl

theorem isReachable_inner (hp : p.WellShaped) : (Flow.of p).isReachable inner = true :=
  hp.isReachable_target h.reachable h.mem_targets

theorem notMem_targets (hp : p.WellShaped) : inner ∉ b.jump.targets := by
  intro hb
  refine h.ne (h.only inner (h.isReachable_inner hp) ?_)
  rw [h.atInner]
  exact hb

end Foldable

section Search

variable (hp : p.WellShaped)
include hp

theorem WellShaped.predecessors_eq_singleton : (Flow.of p).predecessors inner = [head] ↔
    ((Flow.of p).isReachable head = true ∧ inner ∈ (p.jump head).targets) ∧
      ∀ c, (Flow.of p).isReachable c = true → inner ∈ (p.jump c).targets → c = head := by
  have hnodup : ((Flow.of p).predecessors inner).Nodup := (Flow.of p).nodup_order.filter _
  rw [← List.perm_singleton, List.perm_ext_iff_of_nodup hnodup (by simp : [head].Nodup)]
  simp only [hp.mem_predecessors, List.mem_singleton]
  constructor
  · intro h
    exact ⟨(h head).2 rfl, fun c hc ht => (h c).1 ⟨hc, ht⟩⟩
  · rintro ⟨hhead, honly⟩ c
    exact ⟨fun h => honly c h.1 h.2, fun h => h ▸ hhead⟩

theorem WellShaped.only_of_innerTest? (h : p.innerTest? (.of p) head inner = some b) :
    inner ≠ 0 ∧ b.onTrue ≠ b.onFalse ∧
      ∀ c, (Flow.of p).isReachable c = true → inner ∈ (p.jump c).targets → c = head := by
  unfold innerTest? at h
  split at h
  · cases h
  · next hne =>
    simp only [not_or, ne_eq, Decidable.not_not] at hne
    split at h
    · split at h
      · cases h
      · next hdiv =>
        cases h
        exact ⟨hne.2.1, fun he => hdiv (.inr (.inr he)), (hp.predecessors_eq_singleton.1 hne.2.2).2⟩
    · cases h

theorem Foldable.innerTest? (h : p.Foldable head inner a b) :
    p.innerTest? (.of p) head inner = some b := by
  have hpreds := hp.predecessors_eq_singleton.2 ⟨⟨h.reachable, h.mem_targets⟩, h.only⟩
  have hleaves := h.notMem_targets hp
  simp only [Test.jump, Jump.targets, List.mem_cons, List.not_mem_nil, or_false, not_or] at hleaves
  unfold Proto.innerTest?
  rw [if_neg (by simp [h.ne, h.ne_zero, hpreds]), h.empty, h.atInner]
  exact if_neg (by simp [Ne.symm hleaves.1, Ne.symm hleaves.2, h.divides])

theorem WellShaped.foldable_of_foldAt? (hhead : (Flow.of p).isReachable head = true)
    (h : p.foldAt? (.of p) head = some t) :
    ∃ inner a b, p.Foldable head inner a b ∧ p.Chain head inner a b t := by
  obtain ⟨inner, a, b, ha, hparts, hb, hjoins⟩ := foldAt?_cases h
  obtain ⟨hne, hempty, hjump⟩ := innerTest?_eq_some hb
  obtain ⟨hzero, hdivides, honly⟩ := hp.only_of_innerTest? hb
  refine ⟨inner, a, b, ⟨hhead, ha, hparts, hempty, hjump, hdivides, hne, hzero, honly, ?_⟩,
    ⟨ha, hempty, hjump, hne, hjoins⟩⟩
  refine hjoins.imp (And.imp_right fun ht => ?_) (And.imp_right fun ht => ?_)
  · exact Test.conjoin?_isSome_iff.1 (Option.isSome_of_eq_some ht)
  · exact Test.disjoin?_isSome_iff.1 (Option.isSome_of_eq_some ht)

theorem Foldable.foldAt?_isSome (h : p.Foldable head inner a b) :
    (p.foldAt? (.of p) head).isSome = true := by
  have htest : (p.jump head).test? = some a := by
    rw [h.atHead]
    rfl
  have hguard : (guard (a.onTrue ≠ a.onFalse) : Option Unit) = some () := if_pos h.parts
  have hb := h.innerTest? hp
  simp only [Proto.foldAt?, htest, hguard, Option.bind_eq_bind, Option.bind_some,
    Option.orElse_eq_orElse, Option.orElse_eq_or, Option.isSome_or, Bool.or_eq_true]
  refine h.shares.imp ?_ ?_
  · rintro ⟨rfl, hs⟩
    rw [hb]
    exact Test.conjoin?_isSome_iff.2 hs
  · rintro ⟨rfl, hs⟩
    rw [hb]
    exact Test.disjoin?_isSome_iff.2 hs

theorem WellShaped.foldFirst?_eq_none_iff :
    p.foldFirst? = none ↔ ∀ head inner a b, ¬ p.Foldable head inner a b := by
  simp only [Proto.foldFirst?, Option.map_eq_none_iff, List.findSome?_eq_none_iff, Flow.mem_order]
  constructor
  · intro h head inner a b hfold
    have hsome := hfold.foldAt?_isSome hp
    rw [h head hfold.reachable] at hsome
    cases hsome
  · intro h head hhead
    cases ht : p.foldAt? (.of p) head with
    | none => rfl
    | some t =>
      obtain ⟨inner, a, b, hfold, -⟩ := hp.foldable_of_foldAt? hhead ht
      exact absurd hfold (h head inner a b)

end Search

inductive Folded (p : Proto) (inner : BlockId) : Proto → Prop where
  | of_chain {head : BlockId} {a b t : Test} (hfold : p.Foldable head inner a b)
      (hchain : p.Chain head inner a b t) : Folded p inner (p.withJump head t.jump)

inductive Folding : Proto → List BlockId → Proto → Prop where
  | refl (p : Proto) : Folding p [] p
  | step {p q r : Proto} {inner : BlockId} {l : List BlockId} (h : p.Folded inner q)
      (hs : Folding q l r) : Folding p (inner :: l) r

theorem WellShaped.folded_of_foldFirst? (hp : p.WellShaped) (h : p.foldFirst? = some q) :
    ∃ inner, p.Folded inner q := by
  obtain ⟨head, t, hhead, ht, rfl⟩ := foldFirst?_eq_some h
  obtain ⟨inner, a, b, hfold, hchain⟩ := hp.foldable_of_foldAt? hhead ht
  exact ⟨inner, .of_chain hfold hchain⟩

namespace Folded

variable (h : p.Folded inner q) (hp : p.WellShaped)
include h hp

theorem folds {σ : Type} (m : Meaning σ) : Folds m p q := by
  obtain ⟨hfold, hchain⟩ := h
  exact ⟨hchain.wellShaped hp, hchain.returning hp, fun s => hchain.sameRuns _⟩

theorem inner_unreachable : (Flow.of q).isReachable inner = false := by
  have hq := (h.folds hp Meaning.counting).wellShaped
  obtain @⟨head, a, b, t, hfold, hchain⟩ := h
  suffices ∀ {c}, (Flow.of (p.withJump head t.jump)).isReachable c = true → c ≠ inner from
    Bool.eq_false_iff.2 fun hr => this hr rfl
  intro c hc
  -- Only the head led to the second test, and now it leads to the targets of that test.
  induction hc using hq.reachable_induction with
  | zero => exact Ne.symm hfold.ne_zero
  | target x y hx hy _ =>
    rintro rfl
    rw [jump_withJump hchain.head_lt] at hy
    by_cases hxh : x = head
    · rw [if_pos hxh, hchain.mem_targets_iff, hfold.atInner] at hy
      exact hfold.notMem_targets hp hy
    · rw [if_neg hxh] at hy
      exact hxh (hfold.only x (hchain.isReachable hp hx) hy)

theorem isReachable_of_ne {c : BlockId} (hc : (Flow.of p).isReachable c = true) (hne : c ≠ inner) :
    (Flow.of q).isReachable c = true := by
  have hq := (h.folds hp Meaning.counting).wellShaped
  obtain @⟨head, a, b, t, hfold, hchain⟩ := h
  have hjump := jump_withJump hchain.head_lt (p := p) (j := t.jump)
  have hhead {u : BlockId} (hr : (Flow.of (p.withJump head t.jump)).isReachable head = true)
      (hu : u ∈ b.jump.targets) : (Flow.of (p.withJump head t.jump)).isReachable u = true := by
    refine hq.isReachable_target hr ?_
    rw [hjump, if_pos rfl, hchain.mem_targets_iff, hfold.atInner]
    exact hu
  -- Where the way is at the second test, the head is what stays in reach.
  suffices (Flow.of (p.withJump head t.jump)).isReachable (if c = inner then head else c) = true by
    simpa [hne] using this
  clear hne
  induction hc using hp.reachable_induction with
  | zero =>
    rw [if_neg (Ne.symm hfold.ne_zero)]
    exact hq.isReachable_zero
  | target x y hx hy ih =>
    by_cases hxi : x = inner
    · rw [if_pos hxi] at ih
      rw [hxi, hfold.atInner] at hy
      have hyi : y ≠ inner := by
        rintro rfl
        exact hfold.notMem_targets hp hy
      rw [if_neg hyi]
      exact hhead ih hy
    · rw [if_neg hxi] at ih
      by_cases hyi : y = inner
      · rw [hfold.only x hx (hyi ▸ hy)] at ih
        rw [if_pos hyi]
        exact ih
      · rw [if_neg hyi]
        by_cases hxh : x = head
        · rw [hxh] at ih hy
          exact hhead ih ((hfold.target_cases hy).resolve_left hyi)
        · refine hq.isReachable_target ih ?_
          rw [hjump, if_neg hxh]
          exact hy

theorem isReachable_iff {c : BlockId} : (Flow.of q).isReachable c = true ↔
    (Flow.of p).isReachable c = true ∧ c ≠ inner := by
  constructor
  · intro hc
    refine ⟨?_, fun he => ?_⟩
    · obtain ⟨hfold, hchain⟩ := h
      exact hchain.isReachable hp hc
    · rw [he, h.inner_unreachable hp] at hc
      cases hc
  · rintro ⟨hc, hne⟩
    exact h.isReachable_of_ne hp hc hne

theorem perm_order : (inner :: (Flow.of q).order).Perm (Flow.of p).order := by
  have hinner : (Flow.of p).isReachable inner = true := by
    obtain ⟨hfold, -⟩ := h
    exact hfold.isReachable_inner hp
  refine (List.perm_ext_iff_of_nodup ?_ (Flow.of p).nodup_order).2 fun c => ?_
  · rw [List.nodup_cons, Flow.mem_order, h.inner_unreachable hp]
    exact ⟨Bool.false_ne_true, (Flow.of q).nodup_order⟩
  · rw [List.mem_cons, Flow.mem_order, Flow.mem_order, h.isReachable_iff hp]
    by_cases hc : c = inner
    · simp [hc, hinner]
    · simp [hc]

end Folded

namespace Folding

variable {l : List BlockId} (h : Folding p l r) (hp : p.WellShaped)
include h hp

theorem folds {σ : Type} (m : Meaning σ) : Folds m p r := by
  induction h with
  | refl p => exact .refl hp
  | step h _ ih => exact (h.folds hp m).trans (ih (h.folds hp m).wellShaped)

theorem perm_order : (l ++ (Flow.of r).order).Perm (Flow.of p).order := by
  induction h with
  | refl p => exact .refl _
  | step h _ ih => exact ((ih (h.folds hp Meaning.counting).wellShaped).cons _).trans (h.perm_order hp)

theorem length_lt : l.length < (Flow.of p).order.length := by
  rw [← (h.perm_order hp).length_eq, List.length_append]
  have := List.length_pos_of_mem (Flow.mem_order.2 (h.folds hp Meaning.counting).wellShaped.isReachable_zero)
  omega

theorem isReachable_iff {c : BlockId} :
    (Flow.of r).isReachable c = true ↔ (Flow.of p).isReachable c = true ∧ c ∉ l := by
  induction h with
  | refl p => simp
  | step h _ ih =>
    rw [ih (h.folds hp Meaning.counting).wellShaped, h.isReachable_iff hp, List.mem_cons, not_or, and_assoc]

end Folding

theorem folding_foldLoop (n : Nat) (hp : p.WellShaped) (hn : (Flow.of p).order.length ≤ n) :
    ∃ l, Folding p l (foldLoop n p).1 ∧ l.length = (foldLoop n p).2 ∧ (foldLoop n p).1.foldFirst? = none := by
  induction n generalizing p with
  | zero =>
    have := List.length_pos_of_mem (Flow.mem_order.2 hp.isReachable_zero)
    omega
  | succ n ih =>
    unfold foldLoop
    cases hq : p.foldFirst? with
    | none => exact ⟨[], .refl p, rfl, hq⟩
    | some q =>
      obtain ⟨inner, hfold⟩ := hp.folded_of_foldFirst? hq
      have hlen := (hfold.perm_order hp).length_eq
      rw [List.length_cons] at hlen
      obtain ⟨l, hl, hk, hnone⟩ := ih (hfold.folds hp Meaning.counting).wellShaped (by omega)
      exact ⟨inner :: l, .step hfold hl, by rw [List.length_cons, hk], hnone⟩

theorem foldLoop_of_none {n k : Nat} (h : (foldLoop n p).1.foldFirst? = none) :
    foldLoop (n + k) p = foldLoop n p := by
  induction n generalizing p with
  | zero =>
    cases k with
    | zero => rfl
    | succ k =>
      have hp : p.foldFirst? = none := h
      rw [Nat.zero_add]
      unfold foldLoop
      rw [hp]
  | succ n ih =>
    rw [Nat.add_right_comm]
    unfold foldLoop at h ⊢
    cases hq : p.foldFirst? with
    | none => rfl
    | some q =>
      rw [hq] at h
      simp only [ih h]

/-- Folding ends after fewer folds than there are blocks in reach, at a function without chains, where it
has put the blocks of the folded tests and no others out of reach. The function it ends at makes the same
tests and executes the same statements, and keeps its blocks in reach when the others are cleared. -/
theorem foldTests_exhaustive (hp : p.violation? = none) : ∃ l, Folding p l p.foldTests.1 ∧
    l.length = p.foldTests.2 ∧ p.foldTests.2 < (Flow.of p).order.length ∧
    (∀ n, (Flow.of p).order.length ≤ n → foldLoop n p = p.foldTests) ∧
    (∀ b, (Flow.of p.foldTests.1).isReachable b = true ↔ (Flow.of p).isReachable b = true ∧ b ∉ l) ∧
    (∀ head inner a b, ¬ p.foldTests.1.Foldable head inner a b) ∧
    (∀ (σ : Type) (m : Meaning σ) (s : σ), SameRuns (p.machine m m.decide)
      (p.foldTests.1.machine m m.decide) Prod.snd Prod.snd (some 0, s) (some 0, s)) ∧
    ∀ b, (Flow.of p.foldTests.1).isReachable b = true →
      (Flow.of p.foldTests.1.clearUnreachable).isReachable b = true ∧
        p.foldTests.1.clearUnreachable.blocks[b]? = p.foldTests.1.blocks[b]? := by
  have hps := wellShaped_of_violation hp
  have hle : (Flow.of p).order.length ≤ p.blocks.length := by
    rw [← size_flow]
    exact (Flow.of p).length_order_le
  obtain ⟨l, hl, hk, hnone⟩ := folding_foldLoop p.blocks.length hps hle
  have hfolds {σ : Type} (m : Meaning σ) : Folds m p p.foldTests.1 := hl.folds hps m
  have hq := (hfolds Meaning.counting).wellShaped
  refine ⟨l, hl, hk, ?_, fun n hn => ?_, fun b => hl.isReachable_iff hps, hq.foldFirst?_eq_none_iff.1 hnone,
    fun σ m s => (hfolds m).sameRuns s,
    fun b hb => ⟨hq.isReachable_clearUnreachable.2 hb, hq.getElem?_of_isReachable hb⟩⟩
  · rw [foldTests, ← hk]
    exact hl.length_lt hps
  · obtain ⟨l', -, -, hnone'⟩ := folding_foldLoop n hps hn
    rw [foldTests, ← foldLoop_of_none hnone', ← foldLoop_of_none hnone, Nat.add_comm]

def disjunction : Proto :=
  { id := 0
    blocks := [
      ⟨0, 0, 0, [], .branch (.global "a") 3 1⟩,
      ⟨1, 0, 0, [], .branch (.global "b") 3 2⟩,
      ⟨2, 0, 0, [], .branch (.unary .not (.global "c")) 4 3⟩,
      ⟨3, 0, 0, [.call (.global "f") [] 0], .always 4⟩,
      ⟨4, 0, 0, [.ret [] 0], .leave⟩] }

theorem foldTests_exhaustive_disjunction : disjunction.violation? = none ∧ disjunction.foldTests.2 = 2 ∧
    ∃ l, Folding disjunction l disjunction.foldTests.1 ∧ l.length = 2 := by
  have hk : disjunction.foldTests.2 = 2 := by cbv
  obtain ⟨l, hl, hlen, -⟩ := foldTests_exhaustive (p := disjunction) (by cbv)
  exact ⟨by cbv, hk, l, hl, hlen.trans hk⟩

end Proto

end LuaLift
