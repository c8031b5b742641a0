import LuaLift.Proofs.Data.Total
import LuaLift.Proofs.Proto.Simplify
import LuaLift.Proofs.Renumber.Proto

namespace LuaLift

namespace Jump

theorem map_map (f g : BlockId → BlockId) (j : Jump) : (j.map f).map g = j.map (g ∘ f) := by
  cases j <;> rfl

theorem map_congr {f g : BlockId → BlockId} {j : Jump} (h : ∀ t ∈ j.targets, f t = g t) : j.map f = j.map g := by
  cases j <;> simp_all [Jump.map, targets]

theorem decide_map (f : BlockId → BlockId) (j : Jump) : (j.map f).decide = j.decide.map f := by
  cases j with
  | always | leave => rfl
  | branch e b d =>
    cases e with
    | constant c => exact congrArg always (apply_ite f (c.truthy = true) b d).symm
    | _ => rfl

theorem isDecided_map (f : BlockId → BlockId) (j : Jump) : (j.map f).isDecided = j.isDecided := by
  cases j with
  | always | leave => rfl
  | branch e b d => cases e <;> rfl

theorem weight_map (f : BlockId → BlockId) (j : Jump) : (j.map f).weight = j.weight := by
  cases j <;> rfl

end Jump

theorem exists_perm_of_numberings {n : Nat} {S : Nat → Prop} {c d : Nat → Nat} (hc : ∀ k < n, ∃ b, S b ∧ c b = k)
    (hcinj : ∀ a b, S a → S b → c a = c b → a = b) (hd : ∀ b, S b → d b < n)
    (hdinj : ∀ a b, S a → S b → d a = d b → a = b) (hlt : ∀ b, S b → c b < n) :
    ∃ σ : Equiv.Perm Nat, (∀ b, S b → σ (c b) = d b) ∧ ∀ k, n ≤ k → σ k = k := by
  choose origin horigin using hc
  let φ : Fin n → Fin n := fun k => ⟨d (origin k k.isLt), hd _ (horigin k k.isLt).1⟩
  have hφ : Function.Injective φ := by
    intro j k hjk
    have := hdinj _ _ (horigin j j.isLt).1 (horigin k k.isLt).1 (congrArg Fin.val hjk)
    apply Fin.ext
    rw [← (horigin j j.isLt).2, ← (horigin k k.isLt).2, this]
  let e : Equiv.Perm (Fin n) := Equiv.ofBijective φ (Finite.injective_iff_bijective.1 hφ)
  refine ⟨e.extendDomain Fin.equivSubtype, fun b hb => ?_, fun k hk => ?_⟩
  · have horig : origin (c b) (hlt b hb) = b :=
      hcinj _ _ (horigin _ (hlt b hb)).1 hb (horigin _ (hlt b hb)).2
    apply (Equiv.Perm.extendDomain_apply_subtype e Fin.equivSubtype (hlt b hb)).trans
    exact congrArg d horig
  · exact Equiv.Perm.extendDomain_apply_not_subtype _ _ (Nat.not_lt.2 hk)

namespace Proto

namespace Renumbers

variable {π : Equiv.Perm Nat} {p q : Proto} (hr : p.Renumbers π q)
include hr

theorem update {l m : List Block} (hlen : l.length = p.blocks.length)
    (hid : ∀ (i : Nat) (b : Block), l[i]? = some b → b.id = i)
    (h : ∀ b, m[π b]? = l[b]?.map (Block.renumber π)) :
    ({ p with blocks := l } : Proto).Renumbers π { q with blocks := m } where
  entry := Nat.lt_of_lt_of_eq hr.entry hlen.symm
  numbered := hid
  zero := hr.zero
  fixes b hb := hr.fixes b (Nat.le_trans (Nat.le_of_eq hlen.symm) hb)
  blocks := h
  apart := by rw [hr.apart]

theorem mapBlocks {F G : Block → Block} (hid : ∀ b, (F b).id = b.id)
    (h : ∀ b ∈ p.blocks, G (b.renumber π) = (F b).renumber π) :
    ({ p with blocks := p.blocks.map F } : Proto).Renumbers π { q with blocks := q.blocks.map G } := by
  apply hr.update (List.length_map _)
  · intro i b hb
    rw [List.getElem?_map, Option.map_eq_some_iff] at hb
    obtain ⟨c, hc, rfl⟩ := hb
    rw [hid, hr.numbered i c hc]
  · intro b
    rw [List.getElem?_map, List.getElem?_map, hr.blocks]
    cases hb : p.blocks[b]? with
    | none => rfl
    | some c => exact congrArg some (h c (List.mem_of_getElem? hb))

theorem modify {F G : Block → Block} (hid : ∀ b, (F b).id = b.id)
    (h : ∀ b, G (b.renumber π) = (F b).renumber π) (b : BlockId) :
    (p.modify b F).Renumbers π (q.modify (π b) G) := by
  apply hr.update (List.length_modify _ _ _)
  · intro i c hc
    rw [List.getElem?_modify, Option.map_eq_map, Option.map_eq_some_iff] at hc
    obtain ⟨d, hd, rfl⟩ := hc
    split
    · rw [hid, hr.numbered i d hd]
    · exact hr.numbered i d hd
  · intro i
    rw [List.getElem?_modify, List.getElem?_modify, hr.blocks]
    cases p.blocks[i]? with
    | none => rfl
    | some c =>
      by_cases hi : b = i
      · simp [hi, h]
      · simp [hi]

theorem countP {P : Block → Bool} (h : ∀ b, P (b.renumber π) = P b) : q.blocks.countP P = p.blocks.countP P := by
  rw [hr.perm.countP_eq, List.countP_map]
  exact List.countP_congr fun b _ => by rw [Function.comp_apply, h]

theorem totalBlocks {P : Block → Nat} (h : ∀ b, P (b.renumber π) = P b) : total P q.blocks = total P p.blocks := by
  rw [total_perm _ hr.perm, total_map]
  congr 1
  funext b
  exact h b

theorem weight : q.weight = p.weight := hr.totalBlocks fun b => b.jump.weight_map π

theorem decideTests : p.decideTests.1.Renumbers π q.decideTests.1 ∧ q.decideTests.2 = p.decideTests.2 := by
  constructor
  · apply hr.mapBlocks
    · intro b
      rfl
    · intro b _
      simp [Block.renumber, Jump.decide_map]
  · exact hr.countP fun b => b.jump.isDecided_map π

theorem eq_zero_iff {b : BlockId} : π b = 0 ↔ b = 0 := by
  constructor
  · intro h
    exact π.injective (h.trans hr.zero.symm)
  · rintro rfl
    exact hr.zero

theorem forward? (b : BlockId) : q.forward? (π b) = (p.forward? b).map π := by
  rw [Proto.forward?, Proto.forward?, hr.blocks]
  rcases p.blocks[b]? with _ | ⟨id, first, last, _ | ⟨s, body⟩, jump⟩
  · rfl
  · cases jump with
    | always t =>
      have hcond : (π id ≠ 0 ∧ π t ≠ π id) ↔ (id ≠ 0 ∧ t ≠ id) :=
        and_congr (not_congr hr.eq_zero_iff) π.injective.ne_iff
      simp only [Option.map_some, Block.renumber, Jump.map, hcond]
      split <;> rfl
    | _ => rfl
  · rfl

theorem follow (n : Nat) (b : BlockId) : q.follow n (π b) = (p.follow n b).map π := by
  induction n generalizing b with
  | zero => rfl
  | succ n ih =>
    rw [Proto.follow, Proto.follow, hr.forward?]
    cases p.forward? b with
    | none => rfl
    | some t => exact ih t

theorem destination (b : BlockId) : q.destination (π b) = π (p.destination b) := by
  rw [Proto.destination, Proto.destination, hr.length, hr.follow]
  cases p.follow (p.blocks.length + 1) b <;> rfl

theorem threadJumps : p.threadJumps.1.Renumbers π q.threadJumps.1 ∧ q.threadJumps.2 = p.threadJumps.2 := by
  constructor
  · rw [Proto.threadJumps_fst, Proto.threadJumps_fst]
    apply hr.mapBlocks
    · intro b
      rfl
    · intro b _
      simp only [Block.renumber, Jump.map_map]
      congr 2
      funext t
      exact hr.destination t
  · have hperm : (q.blocks.flatMap (·.jump.targets)).Perm ((p.blocks.flatMap (·.jump.targets)).map π) := by
      apply (hr.perm.flatMap_right _).trans
      rw [List.flatMap_map, List.map_flatMap]
      simp [Block.renumber, Jump.targets_map]
    simp only [Proto.threadJumps_eq]
    rw [hperm.countP_eq, List.countP_map]
    apply List.countP_congr
    intro t _
    simp [hr.destination]

theorem joinable? (b : BlockId) : q.joinable? (.of q) (π b) = (p.joinable? (.of p) b).map π := by
  rw [Proto.joinable?, Proto.joinable?, hr.jump]
  cases p.jump b with
  | always t =>
    have hpreds : (Flow.of q).predecessors (π t) = [π b] ↔ (Flow.of p).predecessors t = [b] := by
      rw [hr.flow.predecessors, ← List.map_singleton, (List.map_injective_iff.2 π.injective).eq_iff]
    simp only [Jump.map, π.injective.ne_iff, hpreds, ne_eq, hr.eq_zero_iff]
    split <;> rfl
  | _ => rfl

theorem join (b t : BlockId) : (p.join b t).Renumbers π (q.join (π b) (π t)) := by
  rw [Proto.join, Proto.join, hr.blocks]
  cases p.blocks[t]? with
  | none => exact hr
  | some next =>
    have hcleared := hr.modify (F := fun c => { c with body := [], jump := .leave })
      (G := fun c => { c with body := [], jump := .leave }) (fun _ => rfl) (fun _ => rfl) t
    apply hcleared.modify
    · intro c
      rfl
    · intro c
      rfl

theorem joinFirst : p.joinFirst.1.Renumbers π q.joinFirst.1 ∧ q.joinFirst.2 = p.joinFirst.2 := by
  have hfirst : ((Flow.of q).order.findSome? fun b => (q.joinable? (.of q) b).map (b, ·)) =
      ((Flow.of p).order.findSome? fun b => (p.joinable? (.of p) b).map (b, ·)).map (Prod.map π π) := by
    rw [hr.flow.order, List.findSome?_map, List.map_findSome?]
    congr 1
    funext b
    simp [hr.joinable?, Function.comp_def]
  rw [Proto.joinFirst, Proto.joinFirst, hfirst]
  cases (Flow.of p).order.findSome? fun b => (p.joinable? (.of p) b).map (b, ·) with
  | none => exact ⟨hr, rfl⟩
  | some e => exact ⟨hr.join e.1 e.2, rfl⟩

theorem simplifyStep : p.simplifyStep.1.Renumbers π q.simplifyStep.1 ∧ q.simplifyStep.2 = p.simplifyStep.2 := by
  obtain ⟨hdecided, hd⟩ := hr.decideTests
  obtain ⟨hthreaded, ht⟩ := hdecided.threadJumps
  obtain ⟨hjoined, hj⟩ := hthreaded.joinFirst
  constructor
  · exact hjoined
  · simp only [Proto.simplifyStep, hd, ht, hj]

omit hr in
theorem simplifyLoop (n : Nat) {p q : Proto} (hr : p.Renumbers π q) :
    (simplifyLoop n p).1.Renumbers π (simplifyLoop n q).1 := by
  induction n generalizing p q with
  | zero => exact hr
  | succ n ih =>
    obtain ⟨hstep, hk⟩ := hr.simplifyStep
    simp only [Proto.simplifyLoop, hk]
    split
    · exact hr
    · exact ih hstep

omit hr in
theorem compactId_lt {f : Flow} {a b : BlockId} (ha : f.isReachable a = true) (hab : a < b) :
    compactId f a < compactId f b := by
  have hsucc : compactId f (a + 1) = compactId f a + 1 := by
    rw [compactId, List.range_succ, List.countP_append, List.countP_singleton, if_pos ha]
    rfl
  have hle : compactId f (a + 1) ≤ compactId f b := (List.range_sublist.2 hab).countP_le
  exact Nat.lt_of_lt_of_le (Nat.lt_of_lt_of_eq (Nat.lt_succ_self _) hsucc.symm) hle

omit hr in
theorem compactId_injective {f : Flow} {a b : BlockId} (ha : f.isReachable a = true) (hb : f.isReachable b = true)
    (h : compactId f a = compactId f b) : a = b := by
  rcases Nat.lt_trichotomy a b with hab | hab | hab
  · exact absurd h (Nat.ne_of_lt (compactId_lt ha hab))
  · exact hab
  · exact absurd h.symm (Nat.ne_of_lt (compactId_lt hb hab))

theorem length_compacted : q.compacted.blocks.length = p.compacted.blocks.length := by
  simp only [compacted, List.length_map, ← List.countP_eq_length_filter]
  rw [hr.perm.countP_eq, List.countP_map]
  apply List.countP_congr
  intro b _
  rw [Function.comp_apply, Block.renumber, hr.flow.isReachable]

variable (hp : p.WellShaped)
include hp

theorem exists_perm_compact : ∃ σ : Equiv.Perm Nat,
    (∀ b, (Flow.of p).isReachable b = true → σ (compactId (.of p) b) = compactId (.of q) (π b)) ∧
      ∀ k, p.compacted.blocks.length ≤ k → σ k = k := by
  have hlt {p : Proto} (hp : p.WellShaped) {b : BlockId} (hb : (Flow.of p).isReachable b = true) :
      compactId (.of p) b < p.compacted.blocks.length := by
    have hi := List.getElem?_eq_getElem (hp.lt_of_isReachable hb)
    have := (hp.getElem?_compact (.of p)).2 ⟨b, _, hi, hb, rfl, rfl⟩
    exact (List.getElem?_eq_some_iff.1 this).1
  have hafter {b : BlockId} (hb : (Flow.of p).isReachable b = true) : (Flow.of q).isReachable (π b) = true := by
    rwa [hr.flow.isReachable]
  apply exists_perm_of_numberings (S := fun b => (Flow.of p).isReachable b = true)
  · intro k hk
    obtain ⟨b, _, _, hb, hid, _⟩ := (hp.getElem?_compact (.of p)).1 (List.getElem?_eq_getElem hk)
    exact ⟨b, hb, hid⟩
  · intro a b ha hb h
    exact compactId_injective ha hb h
  · intro b hb
    exact Nat.lt_of_lt_of_eq (hlt (hr.wellShaped hp) (hafter hb)) hr.length_compacted
  · intro a b ha hb h
    exact π.injective (compactId_injective (hafter ha) (hafter hb) h)
  · intro b hb
    exact hlt hp hb

theorem compacted : ∃ σ : Equiv.Perm Nat, p.compacted.Renumbers σ q.compacted := by
  obtain ⟨σ, hσ, hfixes⟩ := hr.exists_perm_compact hp
  refine ⟨σ, hp.compacted.nonempty, fun _ _ => hp.compacted.numbered, ?_, hfixes, fun k => ?_, ?_⟩
  · have := hσ 0 hp.isReachable_zero
    rwa [hr.zero] at this
  · rcases Nat.lt_or_ge k p.compacted.blocks.length with hk | hk
    · have hat := List.getElem?_eq_getElem hk
      obtain ⟨i, b, hi, hb, rfl, hc⟩ := (hp.getElem?_compact (.of p)).1 hat
      have hat' : q.compacted.blocks[compactId (.of q) (π i)]? = some (compactBlock (.of q) (b.renumber π)) := by
        apply ((hr.wellShaped hp).getElem?_compact (.of q)).2
        exact ⟨π i, _, by rw [hr.blocks, hi, Option.map_some], by rwa [hr.flow.isReachable], rfl, rfl⟩
      rw [hσ i hb, hat', hat, ← hc, Option.map_some]
      simp only [compactBlock, Block.renumber, Jump.map_map, hp.numbered hi, hσ i hb]
      congr 2
      apply Jump.map_congr
      intro t ht
      have htr : (Flow.of p).isReachable t = true :=
        hp.isReachable_target hb (by simpa [Proto.jump, hi] using ht)
      simp [hr.flow.isReachable, htr, hσ t htr]
    · have hk' := Nat.le_trans (Nat.le_of_eq hr.length_compacted) hk
      rw [hfixes k hk, List.getElem?_eq_none hk, List.getElem?_eq_none hk', Option.map_none]
  · simp only [Proto.compacted]
    rw [hr.apart]

theorem compact : ∃ σ : Equiv.Perm Nat, p.compact.1.Renumbers σ q.compact.1 := by
  have horder : (Flow.of q).order.length = (Flow.of p).order.length := by rw [hr.flow.order, List.length_map]
  simp only [Proto.compact, hr.length, horder]
  split
  · exact ⟨π, hr⟩
  · exact hr.compacted hp

theorem simplify : ∃ σ : Equiv.Perm Nat, p.simplify.1.Renumbers σ q.simplify.1 := by
  have hw := simplifyLoop_induct (P := WellShaped) (fun _ h => h.simplifyStep) (2 * p.weight + 2) hp
  simp only [Proto.simplify, hr.weight]
  exact (simplifyLoop (2 * p.weight + 2) hr).compact hw

end Renumbers

end Proto

end LuaLift
