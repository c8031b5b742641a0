import LuaLift.Proofs.Renumber.Simplify

namespace LuaLift

theorem Jump.map_eq_self {f : BlockId → BlockId} {j : Jump} (h : ∀ t ∈ j.targets, f t = t) : j.map f = j := by
  cases j <;> simp_all [Jump.map, targets]

@[simp] theorem Jump.weight_always (t : BlockId) : (always t).weight = 1 := rfl

@[simp] theorem Jump.weight_leave : leave.weight = 0 := rfl

theorem Jump.weight_decide (j : Jump) : j.decide.weight + (if j.isDecided then 2 else 0) = j.weight := by
  unfold decide isDecided
  split <;> rfl

theorem Jump.isDecided_decide (j : Jump) : j.decide.isDecided = false := by
  cases j with
  | always | leave => rfl
  | branch c _ _ => cases c <;> rfl

theorem Jump.decide_of_not_isDecided {j : Jump} (h : j.isDecided = false) : j.decide = j := by
  unfold decide
  split
  · cases h
  · rfl

namespace Proto

open Relation

variable {p : Proto} {b d t : BlockId}

def onward (p : Proto) (b : BlockId) : BlockId := (p.forward? b).getD b

def ChainEnds (p : Proto) (b d : BlockId) : Prop := ∃ n, p.onward^[n] b = d ∧ p.forward? d = none

theorem onward_of_forward (h : p.forward? b = some t) : p.onward b = t := by
  rw [onward, h]
  rfl

theorem onward_of_end (h : p.forward? b = none) : p.onward b = b := by
  rw [onward, h]
  rfl

theorem lt_of_forward (h : p.forward? b ≠ none) : b < p.blocks.length := by
  refine Nat.lt_of_not_le fun hb => h ?_
  rw [forward?, List.getElem?_eq_none hb]

theorem follow_succ_eq_some {n : Nat} :
    p.follow (n + 1) b = some d ↔ p.onward^[n] b = d ∧ p.forward? d = none := by
  induction n generalizing b with
  | zero =>
    rw [follow]
    cases hb : p.forward? b with
    | none =>
      constructor
      · intro h
        cases h
        exact ⟨rfl, hb⟩
      · rintro ⟨rfl, -⟩
        rfl
    | some t =>
      refine ⟨fun h => (by cases h), ?_⟩
      rintro ⟨rfl, hd⟩
      simp [hb] at hd
  | succ n ih =>
    rw [follow, Function.iterate_succ_apply]
    cases hb : p.forward? b with
    | none =>
      rw [onward_of_end hb, Function.iterate_fixed (onward_of_end hb)]
      constructor
      · intro h
        cases h
        exact ⟨rfl, hb⟩
      · rintro ⟨rfl, -⟩
        rfl
    | some t => rw [onward_of_forward hb, ih]

theorem exists_repeat (h : p.forward? (p.onward^[p.blocks.length] b) ≠ none) :
    ∃ i j, i < j ∧ p.onward^[i] b = p.onward^[j] b ∧ ∀ n ≤ j, p.forward? (p.onward^[n] b) ≠ none := by
  have inside {n : Nat} (hn : n ≤ p.blocks.length) : p.forward? (p.onward^[n] b) ≠ none := by
    intro hend
    apply h
    rw [← Nat.sub_add_cancel hn, Function.iterate_add_apply, Function.iterate_fixed (onward_of_end hend)]
    exact hend
  obtain ⟨i, hi, j, hj, hij, he⟩ := Finset.exists_ne_map_eq_of_card_lt_of_maps_to
    (s := Finset.range (p.blocks.length + 1)) (t := Finset.range p.blocks.length)
    (f := fun n => p.onward^[n] b) (by simp)
    (fun n hn => Finset.mem_coe.2 (Finset.mem_range.2
      (lt_of_forward (inside (Nat.le_of_lt_succ (Finset.mem_range.1 hn))))))
  rw [Finset.mem_range, Nat.lt_succ_iff] at hi hj
  rcases Nat.lt_or_gt_of_ne hij with hlt | hlt
  · exact ⟨i, j, hlt, he, fun n hn => inside (hn.trans hj)⟩
  · exact ⟨j, i, hlt, he.symm, fun n hn => inside (hn.trans hi)⟩

theorem ChainEnds.at_length (h : p.ChainEnds b d) :
    p.onward^[p.blocks.length] b = d ∧ p.forward? d = none := by
  obtain ⟨n, hn, hd⟩ := h
  have hend : p.forward? (p.onward^[p.blocks.length] b) = none := by
    by_contra hgo
    obtain ⟨i, j, hij, he, hgo⟩ := exists_repeat hgo
    -- Behind the repetition every block of the chain is one of those before it.
    have hforever (m : Nat) : p.forward? (p.onward^[m] b) ≠ none := by
      induction m using Nat.strong_induction_on with
      | _ m ih =>
        rcases Nat.le_or_ge m j with hm | hm
        · exact hgo m hm
        · have := ih (m - j + i) (by omega)
          rwa [Function.iterate_add_apply, he, ← Function.iterate_add_apply, Nat.sub_add_cancel hm] at this
    exact hforever n (hn ▸ hd)
  refine ⟨?_, hd⟩
  rcases Nat.le_total n p.blocks.length with hle | hle
  · rw [← Nat.sub_add_cancel hle, Function.iterate_add_apply, hn, Function.iterate_fixed (onward_of_end hd)]
  · rw [← hn, ← Nat.sub_add_cancel hle, Function.iterate_add_apply,
      Function.iterate_fixed (onward_of_end hend)]

theorem follow_length : p.follow (p.blocks.length + 1) b = some d ↔ p.ChainEnds b d :=
  ⟨fun h => ⟨_, follow_succ_eq_some.1 h⟩, fun h => follow_succ_eq_some.2 h.at_length⟩

theorem ChainEnds.destination (h : p.ChainEnds b d) : p.destination b = d := by
  rw [Proto.destination, follow_length.2 h]
  rfl

theorem destination_of_endless (h : ∀ d, ¬p.ChainEnds b d) : p.destination b = b := by
  rw [destination, Option.eq_none_iff_forall_ne_some.2 fun d hd => h d (follow_length.1 hd)]
  rfl

theorem chainEnds_self (h : p.forward? d = none) : p.ChainEnds d d := ⟨0, rfl, h⟩

theorem ChainEnds.head (h : p.forward? b = some t) (ht : p.ChainEnds t d) : p.ChainEnds b d := by
  obtain ⟨n, hn, hd⟩ := ht
  exact ⟨n + 1, by rw [Function.iterate_succ_apply, onward_of_forward h, hn], hd⟩

theorem ChainEnds.tail (h : p.forward? b = some t) (hb : p.ChainEnds b d) : p.ChainEnds t d := by
  obtain ⟨n, hn, hd⟩ := hb
  cases n with
  | zero =>
    cases hn
    simp [h] at hd
  | succ n => exact ⟨n, by rwa [Function.iterate_succ_apply, onward_of_forward h] at hn, hd⟩

theorem destination_cases (b : BlockId) : p.ChainEnds b (p.destination b) ∨
    p.destination b = b ∧ ∀ d, ¬p.ChainEnds b d := by
  by_cases h : ∃ d, p.ChainEnds b d
  · obtain ⟨d, hd⟩ := h
    exact .inl (hd.destination ▸ hd)
  · have h := not_exists.1 h
    exact .inr ⟨destination_of_endless h, h⟩

structure Hollow (p : Proto) (b t : BlockId) : Prop where
  ne_zero : b ≠ 0
  body : p.body b = []
  jump : p.jump b = .always t

theorem WellShaped.forward?_iff (hp : p.WellShaped) : p.forward? b = some t ↔ p.Hollow b t ∧ t ≠ b := by
  constructor
  · intro h
    have hbj := forward?_eq_some h
    unfold forward? at h
    split at h
    · next hb =>
      have hid := hp.numbered hb
      dsimp only at hid
      split at h
      · next hne =>
        cases h
        subst hid
        exact ⟨⟨hne.1, hbj.1, hbj.2⟩, hne.2⟩
      · cases h
    · cases h
  · rintro ⟨h, hne⟩
    cases hb : p.blocks[b]? with
    | none => simpa [Proto.jump, hb] using h.jump
    | some c =>
      have hid := hp.numbered hb
      have hbody : c.body = [] := by simpa [Proto.body, hb] using h.body
      have hjump : c.jump = .always t := by simpa [Proto.jump, hb] using h.jump
      obtain ⟨id, first, last, body, jump⟩ := c
      cases hid
      cases hbody
      cases hjump
      rw [forward?, hb]
      exact if_pos ⟨h.ne_zero, hne⟩

def Circles (p : Proto) (b : BlockId) : Prop := ∃ c, ReflTransGen p.Hollow b c ∧ TransGen p.Hollow c c

theorem WellShaped.circles_of_endless (hp : p.WellShaped) (h : ∀ d, ¬p.ChainEnds b d) : p.Circles b := by
  have hgo (n : Nat) : p.forward? (p.onward^[n] b) ≠ none := fun hn => h _ ⟨n, rfl, hn⟩
  have hstep (n : Nat) : p.Hollow (p.onward^[n] b) (p.onward^[n + 1] b) := by
    obtain ⟨t, ht⟩ := Option.ne_none_iff_exists'.1 (hgo n)
    rw [Function.iterate_succ_apply', onward_of_forward ht]
    exact (hp.forward?_iff.1 ht).1
  have hpath (i k : Nat) : ReflTransGen p.Hollow (p.onward^[i] b) (p.onward^[i + k] b) := by
    induction k with
    | zero => exact .refl
    | succ k ih => exact ih.tail (hstep (i + k))
  obtain ⟨i, j, hij, he, -⟩ := exists_repeat (hgo p.blocks.length)
  obtain ⟨k, rfl⟩ := Nat.exists_eq_add_of_lt hij
  refine ⟨p.onward^[i] b, ?_, ?_⟩
  · have := hpath 0 i
    rwa [Nat.zero_add] at this
  · refine .head' (hstep i) ?_
    have := hpath (i + 1) k
    rwa [Nat.add_right_comm, ← he] at this

theorem WellShaped.circles_of_destination (hp : p.WellShaped) (hd : p.destination b = b) (h : p.Hollow b t) :
    p.Circles b := by
  by_cases ht : t = b
  · subst ht
    exact ⟨t, .refl, .single h⟩
  · have hgo := hp.forward?_iff.2 ⟨h, ht⟩
    refine hp.circles_of_endless fun d hends => ?_
    have := hends.at_length.2
    rw [← hends.destination, hd, hgo] at this
    cases this

theorem body_threadJumps (b : BlockId) : p.threadJumps.1.body b = p.body b := by
  rw [threadJumps_fst, body_mapJumps]

theorem jump_threadJumps (b : BlockId) : p.threadJumps.1.jump b = (p.jump b).map p.destination := by
  rw [threadJumps_fst]
  exact jump_mapJumps rfl b

theorem WellShaped.forward?_threadJumps (hp : p.WellShaped) (b : BlockId) :
    p.threadJumps.1.forward? b = (p.forward? b).map p.destination := by
  have hbody := body_threadJumps (p := p) b
  have hjump := jump_threadJumps (p := p) b
  cases hb : p.forward? b with
  | some t =>
    obtain ⟨h, hne⟩ := hp.forward?_iff.1 hb
    refine hp.threadJumps.forward?_iff.2 ⟨⟨h.ne_zero, hbody.trans h.body, hjump.trans (by rw [h.jump, Jump.map])⟩, ?_⟩
    rcases destination_cases (p := p) t with ⟨_, -, hend⟩ | ⟨he, -⟩
    · intro he
      rw [he, hb] at hend
      cases hend
    · rwa [he]
  | none =>
    refine Option.eq_none_iff_forall_ne_some.2 fun u hu => ?_
    obtain ⟨h, hne⟩ := hp.threadJumps.forward?_iff.1 hu
    have hu := hjump.symm.trans h.jump
    cases hj : p.jump b with
    | always t =>
      rw [hj, Jump.map, Jump.always.injEq] at hu
      by_cases ht : t = b
      · rw [ht, (chainEnds_self hb).destination] at hu
        exact hne hu.symm
      · rw [hp.forward?_iff.2 ⟨⟨h.ne_zero, hbody.symm.trans h.body, hj⟩, ht⟩] at hb
        cases hb
    | _ => simp [hj, Jump.map] at hu

theorem WellShaped.endless_threadJumps (hp : p.WellShaped) (h : ∀ d, ¬p.ChainEnds b d) (d : BlockId) :
    ¬p.threadJumps.1.ChainEnds b d := by
  rintro ⟨n, rfl, hend⟩
  induction n generalizing b with
  | zero =>
    rw [Function.iterate_zero_apply, hp.forward?_threadJumps, Option.map_eq_none_iff] at hend
    exact h b (chainEnds_self hend)
  | succ n ih =>
    cases hb : p.forward? b with
    | none => exact h b (chainEnds_self hb)
    | some t =>
      have ht (d : BlockId) : ¬p.ChainEnds t d := fun hd => h d (hd.head hb)
      have hgo : p.threadJumps.1.forward? b = some t := by
        rw [hp.forward?_threadJumps, hb, Option.map_some, destination_of_endless ht]
      rw [Function.iterate_succ_apply, onward_of_forward hgo] at hend
      exact ih ht hend

theorem WellShaped.destination_threadJumps (hp : p.WellShaped) (b : BlockId) :
    p.threadJumps.1.destination (p.destination b) = p.destination b := by
  rcases destination_cases (p := p) b with ⟨_, -, hend⟩ | ⟨he, h⟩
  · apply (chainEnds_self _).destination
    rw [hp.forward?_threadJumps, hend, Option.map_none]
  · rw [he]
    exact destination_of_endless (hp.endless_threadJumps h)

theorem forall_jump {P : Jump → Prop} (hleave : P .leave) : (∀ c ∈ p.blocks, P c.jump) ↔ ∀ b, P (p.jump b) := by
  constructor
  · intro h b
    unfold jump
    cases hb : p.blocks[b]? with
    | none => exact hleave
    | some c => exact h c (List.mem_of_getElem? hb)
  · intro h c hc
    obtain ⟨b, hb⟩ := List.mem_iff_getElem?.1 hc
    have := h b
    rwa [jump, hb] at this

theorem decideTests_eq_zero : p.decideTests.2 = 0 ↔ ∀ b, (p.jump b).isDecided = false := by
  rw [← forall_jump (P := fun j => j.isDecided = false) rfl]
  simp [decideTests, List.countP_eq_zero]

theorem threadJumps_eq_zero :
    p.threadJumps.2 = 0 ↔ ∀ b, ∀ t ∈ (p.jump b).targets, p.destination t = t := by
  rw [← forall_jump (P := fun j => ∀ t ∈ j.targets, p.destination t = t) (by simp [Jump.targets])]
  simp only [threadJumps_eq, List.countP_eq_zero, List.mem_flatMap, decide_eq_true_eq, not_not]
  constructor
  · intro h b hb t ht
    exact h t ⟨b, hb, ht⟩
  · rintro h t ⟨b, hb, ht⟩
    exact h b hb t ht

theorem mapJumps_eq_self {f : Jump → Jump} (hleave : f .leave = .leave) (h : ∀ b, f (p.jump b) = p.jump b) :
    p.mapJumps f = p := by
  apply with_blocks
  refine (List.map_congr_left fun c hc => ?_).trans (List.map_id _)
  rw [(forall_jump (P := fun j => f j = j) hleave).2 h c hc, id_eq]

theorem Joinable.joinable? (hp : p.WellShaped) (h : p.Joinable b t) : p.joinable? (Flow.of p) b = some t := by
  have honly : (Flow.of p).predecessors t = [b] := by
    refine List.perm_singleton.1 ((List.perm_ext_iff_of_nodup ?_ (List.nodup_singleton b)).2 fun c => ?_)
    · exact (Flow.of p).nodup_order.filter _
    · rw [hp.mem_predecessors, List.mem_singleton]
      constructor
      · rintro ⟨hc, ht⟩
        exact h.only c hc ht
      · rintro rfl
        exact ⟨h.reachable, by rw [h.jump]; exact .head _⟩
  rw [Proto.joinable?, h.jump]
  exact if_pos ⟨h.ne, h.ne_zero, honly⟩

theorem WellShaped.joinFirst_eq_zero (hp : p.WellShaped) : p.joinFirst.2 = 0 ↔ ∀ b t, ¬p.Joinable b t := by
  constructor
  · intro hzero b t h
    rw [Proto.joinFirst] at hzero
    split at hzero
    · cases hzero
    · next hnone =>
      have := List.findSome?_eq_none_iff.1 hnone b (Flow.mem_order.2 h.reachable)
      rw [h.joinable? hp] at this
      cases this
  · intro h
    rcases joinFirst_cases p with he | ⟨b, t, hb, ht, -⟩
    · rw [he]
    · exact absurd (hp.joinable hb ht) (h b t)

structure Still (p : Proto) : Prop where
  shaped : p.WellShaped
  decided : ∀ b, (p.jump b).isDecided = false
  threaded : ∀ b, ∀ t ∈ (p.jump b).targets, p.destination t = t
  joined : ∀ b t, ¬p.Joinable b t

theorem decideTests_of_zero (h : p.decideTests.2 = 0) : p.decideTests = (p, 0) := by
  refine Prod.ext (mapJumps_eq_self rfl fun b => ?_) h
  exact Jump.decide_of_not_isDecided (decideTests_eq_zero.1 h b)

theorem threadJumps_of_zero (h : p.threadJumps.2 = 0) : p.threadJumps = (p, 0) := by
  refine Prod.ext (threadJumps_fst.trans (mapJumps_eq_self rfl fun b => ?_)) h
  exact Jump.map_eq_self (threadJumps_eq_zero.1 h b)

theorem joinFirst_of_zero (h : p.joinFirst.2 = 0) : p.joinFirst = (p, 0) := by
  rcases joinFirst_cases p with he | ⟨b, t, -, -, he⟩
  · exact he
  · rw [he] at h
    cases h

theorem WellShaped.still (hp : p.WellShaped) (h : p.simplifyStep.2 = 0) : p.Still := by
  have hd : p.decideTests.2 = 0 := by
    simp only [Proto.simplifyStep] at h
    omega
  simp only [Proto.simplifyStep, decideTests_of_zero hd, Nat.zero_add] at h
  have ht : p.threadJumps.2 = 0 := by omega
  rw [threadJumps_of_zero ht, Nat.zero_add] at h
  exact ⟨hp, decideTests_eq_zero.1 hd, threadJumps_eq_zero.1 ht, hp.joinFirst_eq_zero.1 h⟩

theorem Still.simplifyStep (h : p.Still) : p.simplifyStep = (p, 0) := by
  simp only [Proto.simplifyStep, decideTests_of_zero (decideTests_eq_zero.2 h.decided),
    threadJumps_of_zero (threadJumps_eq_zero.2 h.threaded), joinFirst_of_zero (h.shaped.joinFirst_eq_zero.2 h.joined)]

theorem weight_decideTests (p : Proto) : p.decideTests.1.weight + 2 * p.decideTests.2 = p.weight := by
  simp only [decideTests, weight, total_map]
  induction p.blocks with
  | nil => rfl
  | cons b l ih =>
    have := b.jump.weight_decide
    rw [total, total, List.countP_cons, ← ih, ← this]
    split <;> omega

theorem weight_threadJumps (p : Proto) : p.threadJumps.1.weight = p.weight := by
  simp only [threadJumps_fst, mapJumps, weight, total_map, Jump.weight_map]

theorem Joinable.weight_join (hp : p.WellShaped) (h : p.Joinable b t) : (p.join b t).weight + 1 = p.weight := by
  obtain ⟨next, hn⟩ := h.exists_next hp
  obtain ⟨c, hc⟩ := h.exists_block hp
  have hjump : c.jump = .always t := by simpa [Proto.jump, hc] using h.jump
  have hsource : (p.blocks.modify t fun c => { c with body := [], jump := .leave })[b]? = some c := by
    rw [List.getElem?_modify, hc]
    simp [h.ne]
  have hcleared := total_modify (·.jump.weight) hn fun c => { c with body := [], jump := .leave }
  have hgrown := total_modify (·.jump.weight) hsource fun c =>
    { c with body := c.body ++ next.body, jump := next.jump, lastAddress := max c.lastAddress next.lastAddress }
  rw [hjump] at hgrown
  simp only [Proto.join, hn, modify, weight]
  simp only [Jump.weight_leave, Jump.weight_always] at hgrown hcleared
  omega

theorem WellShaped.weight_joinFirst (hp : p.WellShaped) : p.joinFirst.1.weight + p.joinFirst.2 = p.weight := by
  rcases joinFirst_cases p with he | ⟨b, t, hb, ht, he⟩ <;> rw [he]
  · rfl
  · exact (hp.joinable hb ht).weight_join hp

theorem WellShaped.still_of_weight (hp : p.WellShaped) (h : p.weight ≤ p.simplifyStep.1.weight) :
    p.simplifyStep.1.Still := by
  have hd := p.weight_decideTests
  have ht := p.decideTests.1.weight_threadJumps
  have hj := hp.decideTests.threadJumps.weight_joinFirst
  simp only [Proto.simplifyStep] at h ⊢
  have hdecided : p.decideTests.2 = 0 := by omega
  rw [decideTests_of_zero hdecided] at h hj ht ⊢
  have hjoined : p.threadJumps.1.joinFirst.2 = 0 := by
    dsimp only at hj ht h
    omega
  rw [joinFirst_of_zero hjoined]
  have hat := jump_threadJumps (p := p)
  refine ⟨hp.threadJumps, fun b => ?_, fun b t ht => ?_, hp.threadJumps.joinFirst_eq_zero.1 hjoined⟩
  · rw [hat, Jump.isDecided_map]
    exact decideTests_eq_zero.1 hdecided b
  · rw [hat, Jump.targets_map, List.mem_map] at ht
    obtain ⟨u, -, rfl⟩ := ht
    exact hp.destination_threadJumps u

inductive Rounds : Proto → Proto → Nat → Prop where
  | stop {p : Proto} (h : p.simplifyStep.2 = 0) : Rounds p p.simplifyStep.1 0
  | round {p q : Proto} {k : Nat} (h : p.simplifyStep.2 ≠ 0) (rest : Rounds p.simplifyStep.1 q k) :
    Rounds p q (p.simplifyStep.2 + k)

theorem Still.rounds (h : p.Still) : p.Rounds p 0 := by
  have := Rounds.stop (p := p) (by rw [h.simplifyStep])
  rwa [h.simplifyStep] at this

theorem Still.simplifyLoop (h : p.Still) (n : Nat) : simplifyLoop n p = (p, 0) := by
  cases n with
  | zero => rfl
  | succ n => simp [Proto.simplifyLoop, h.simplifyStep]

theorem WellShaped.rounds {n : Nat} (hp : p.WellShaped) (hn : p.weight + 2 ≤ n) :
    p.Rounds (simplifyLoop n p).1 (simplifyLoop n p).2 ∧ (simplifyLoop n p).1.Still := by
  induction n generalizing p with
  | zero => omega
  | succ n ih =>
    rw [Proto.simplifyLoop]
    dsimp only
    split
    · next hzero =>
      have hstill := hp.still hzero
      exact ⟨hstill.rounds, hstill⟩
    · next hchanged =>
      rcases Nat.lt_or_ge p.simplifyStep.1.weight p.weight with hlt | hge
      · obtain ⟨hrounds, hstill⟩ := ih hp.simplifyStep (by omega)
        exact ⟨.round hchanged hrounds, hstill⟩
      · have hstill := hp.still_of_weight hge
        rw [hstill.simplifyLoop]
        exact ⟨.round hchanged hstill.rounds, hstill⟩

theorem compactId_eq_iff {f : Flow} {a b : BlockId} (ha : f.isReachable a = true) (hb : f.isReachable b = true) :
    compactId f a = compactId f b ↔ a = b :=
  ⟨Renumbers.compactId_injective ha hb, congrArg _⟩

section Compact

variable (hp : p.WellShaped)
include hp

theorem WellShaped.exists_compactId {j : BlockId} (hj : j < p.compacted.blocks.length) :
    ∃ b, (Flow.of p).isReachable b = true ∧ compactId (.of p) b = j := by
  obtain ⟨b, _, _, hb, hid, _⟩ := (hp.getElem?_compact (.of p)).1 (List.getElem?_eq_getElem hj)
  exact ⟨b, hb, hid⟩

theorem WellShaped.isReachable_compacted (hb : (Flow.of p).isReachable b = true) :
    (Flow.of p.compacted).isReachable (compactId (.of p) b) = true := by
  induction hb using hp.reachable_induction with
  | zero => exact hp.compacted.isReachable_zero
  | target a t ha ht ih =>
    refine hp.compacted.isReachable_target ih ?_
    rw [(hp.at_compactId ha).2, Jump.targets_map]
    exact List.mem_map_of_mem ht

theorem WellShaped.hollow_compacted (hb : (Flow.of p).isReachable b = true) {u : BlockId} :
    p.compacted.Hollow (compactId (.of p) b) u ↔ ∃ t, p.Hollow b t ∧ compactId (.of p) t = u := by
  have hzero : compactId (.of p) b ≠ 0 ↔ b ≠ 0 := not_congr (compactId_eq_iff hb hp.isReachable_zero)
  obtain ⟨hbody, hjump⟩ := hp.at_compactId hb
  constructor
  · intro h
    have hu := hjump.symm.trans h.jump
    cases hj : p.jump b with
    | always t => exact ⟨t, ⟨hzero.1 h.ne_zero, hbody.symm.trans h.body, hj⟩, by simpa [hj, Jump.map] using hu⟩
    | _ => simp [hj, Jump.map] at hu
  · rintro ⟨t, h, rfl⟩
    exact ⟨hzero.2 h.ne_zero, hbody.trans h.body, hjump.trans (by rw [h.jump, Jump.map])⟩

theorem WellShaped.forward?_compacted (hb : (Flow.of p).isReachable b = true) :
    p.compacted.forward? (compactId (.of p) b) = (p.forward? b).map (compactId (.of p)) := by
  ext u
  rw [hp.compacted.forward?_iff, hp.hollow_compacted hb, Option.map_eq_some_iff]
  constructor
  · rintro ⟨⟨t, h, rfl⟩, hne⟩
    exact ⟨t, hp.forward?_iff.2 ⟨h, fun ht => hne (by rw [ht])⟩, rfl⟩
  · rintro ⟨t, h, rfl⟩
    obtain ⟨h, hne⟩ := hp.forward?_iff.1 h
    have ht : (Flow.of p).isReachable t = true := hp.isReachable_target hb (by rw [h.jump]; exact .head _)
    exact ⟨⟨t, h, rfl⟩, (compactId_eq_iff ht hb).not.2 hne⟩

theorem WellShaped.iterate_compacted (hb : (Flow.of p).isReachable b = true) (n : Nat) :
    (Flow.of p).isReachable (p.onward^[n] b) = true ∧
      p.compacted.onward^[n] (compactId (.of p) b) = compactId (.of p) (p.onward^[n] b) := by
  induction n with
  | zero => exact ⟨hb, rfl⟩
  | succ n ih =>
    obtain ⟨hr, he⟩ := ih
    rw [Function.iterate_succ_apply', Function.iterate_succ_apply', he, onward, onward,
      hp.forward?_compacted hr]
    cases hf : p.forward? (p.onward^[n] b) with
    | none => exact ⟨hr, rfl⟩
    | some t =>
      refine ⟨hp.isReachable_target hr ?_, rfl⟩
      rw [(forward?_eq_some hf).2]
      exact .head _

theorem WellShaped.destination_compacted (hb : (Flow.of p).isReachable b = true) :
    p.compacted.destination (compactId (.of p) b) = compactId (.of p) (p.destination b) := by
  rcases destination_cases (p := p) b with ⟨n, hn, hend⟩ | ⟨he, h⟩
  · obtain ⟨hr, hi⟩ := hp.iterate_compacted hb n
    refine ChainEnds.destination ⟨n, by rw [hi, hn], ?_⟩
    rw [← hn] at hend ⊢
    rw [hp.forward?_compacted hr, hend, Option.map_none]
  · rw [he]
    refine destination_of_endless fun d hd => ?_
    obtain ⟨n, rfl, hend⟩ := hd
    obtain ⟨hr, hi⟩ := hp.iterate_compacted hb n
    rw [hi, hp.forward?_compacted hr, Option.map_eq_none_iff] at hend
    exact h _ ⟨n, rfl, hend⟩

theorem WellShaped.joinable_compacted {b' t' : BlockId} (h : p.compacted.Joinable b' t') :
    ∃ b t, p.Joinable b t := by
  obtain ⟨b, hb, rfl⟩ := hp.exists_compactId (hp.compacted.lt_of_isReachable h.reachable)
  have hjump := (hp.at_compactId hb).2.symm.trans h.jump
  cases hj : p.jump b with
  | always t =>
    rw [hj, Jump.map, Jump.always.injEq] at hjump
    subst hjump
    have ht : (Flow.of p).isReachable t = true := hp.isReachable_target hb (by rw [hj]; exact .head _)
    refine ⟨b, t, hb, hj, fun he => h.ne (by rw [he]), fun he => h.ne_zero (by rw [he]; rfl), fun c hc hct => ?_⟩
    refine (compactId_eq_iff hc hb).1 (h.only _ (hp.isReachable_compacted hc) ?_)
    rw [(hp.at_compactId hc).2, Jump.targets_map]
    exact List.mem_map_of_mem hct
  | _ => simp [hj, Jump.map] at hjump

theorem WellShaped.jump_compacted (j : BlockId) : p.compacted.jump j = .leave ∨
    ∃ b, (Flow.of p).isReachable b = true ∧ p.compacted.jump j = (p.jump b).map (compactId (.of p)) := by
  rcases Nat.lt_or_ge j p.compacted.blocks.length with hj | hj
  · obtain ⟨b, hb, rfl⟩ := hp.exists_compactId hj
    exact .inr ⟨b, hb, (hp.at_compactId hb).2⟩
  · exact .inl (by rw [jump, List.getElem?_eq_none hj]; rfl)

omit hp in
theorem Still.compacted (h : p.Still) : p.compacted.Still where
  shaped := h.shaped.compacted
  decided j := by
    rcases h.shaped.jump_compacted j with he | ⟨b, -, he⟩ <;> rw [he]
    · rfl
    · rw [Jump.isDecided_map, h.decided]
  threaded j t ht := by
    rcases h.shaped.jump_compacted j with he | ⟨b, hb, he⟩ <;> rw [he] at ht
    · cases ht
    · rw [Jump.targets_map, List.mem_map] at ht
      obtain ⟨u, hu, rfl⟩ := ht
      rw [h.shaped.destination_compacted (h.shaped.isReachable_target hb hu), h.threaded b u hu]
  joined b t hbt := by
    obtain ⟨b, t, hj⟩ := h.shaped.joinable_compacted hbt
    exact h.joined b t hj

omit hp in
theorem compact_of_reachable (h : ∀ b < p.blocks.length, (Flow.of p).isReachable b = true) :
    p.compact = (p, 0) := by
  have hsub : List.range p.blocks.length ⊆ (Flow.of p).order := fun b hb =>
    Flow.mem_order.2 (h b (List.mem_range.1 hb))
  have := (List.nodup_range.subperm hsub).length_le
  rw [List.length_range] at this
  rw [compact]
  exact if_pos (by omega)

theorem WellShaped.reachable_of_compact (h : p.blocks.length ≤ (Flow.of p).order.length) :
    ∀ b < p.blocks.length, (Flow.of p).isReachable b = true := by
  have hsub : (Flow.of p).order ⊆ List.range p.blocks.length := fun b hb =>
    List.mem_range.2 (hp.lt_of_isReachable (Flow.mem_order.1 hb))
  have hperm := ((Flow.of p).nodup_order.subperm hsub).perm_of_length_le (by rwa [List.length_range])
  exact fun b hb => Flow.mem_order.1 (hperm.mem_iff.2 (List.mem_range.2 hb))

omit hp in
theorem Still.compact (h : p.Still) : p.compact.1.Still ∧
    ∀ b < p.compact.1.blocks.length, (Flow.of p.compact.1).isReachable b = true := by
  rw [Proto.compact]
  split
  · next hnone => exact ⟨h, h.shaped.reachable_of_compact (by omega)⟩
  · refine ⟨h.compacted, fun j hj => ?_⟩
    obtain ⟨b, hb, rfl⟩ := h.shaped.exists_compactId hj
    exact h.shaped.isReachable_compacted hb

end Compact

structure Normal (p : Proto) : Prop where
  nonempty : 0 < p.blocks.length
  numbered : ∀ {i : Nat} {b : Block}, p.blocks[i]? = some b → b.id = i
  reachable : ∀ b < p.blocks.length, ReflTransGen (fun a t => t ∈ (p.jump a).targets) 0 b
  undecided : ∀ b c t e, p.jump b ≠ .branch (.constant c) t e
  /-- An edge into an empty block that jumps on is left only in front of a cycle of such blocks. -/
  threaded : ∀ a b t, b ∈ (p.jump a).targets → p.Hollow b t → p.Circles b
  /-- The target of a plain jump is the block itself, the entry, or has another predecessor. -/
  joined : ∀ b t, p.jump b = .always t → t ≠ b → t ≠ 0 → ∃ c, c ≠ b ∧ t ∈ (p.jump c).targets

theorem Still.normal (h : p.Still) (hr : ∀ b < p.blocks.length, (Flow.of p).isReachable b = true) : p.Normal where
  nonempty := h.shaped.nonempty
  numbered := h.shaped.numbered
  reachable b hb := by
    replace hb := hr b hb
    induction hb using h.shaped.reachable_induction with
    | zero => exact .refl
    | target a t _ ht ih => exact ih.tail ht
  undecided b c t e he := by
    have := h.decided b
    rw [he] at this
    cases this
  threaded a b t hb ht := h.shaped.circles_of_destination (h.threaded a b hb) ht
  joined b t hj hne hzero := by
    have hb : b < p.blocks.length := by
      refine Nat.lt_of_not_le fun hb => ?_
      rw [jump, List.getElem?_eq_none hb] at hj
      cases hj
    by_contra hother
    exact h.joined b t ⟨hr b hb, hj, hne, hzero,
      fun c _ hc => by_contra fun hcb => hother ⟨c, hcb, hc⟩⟩

theorem Still.simplify (h : p.Still) (hr : ∀ b < p.blocks.length, (Flow.of p).isReachable b = true) :
    p.simplify = (p, 0) := by
  simp only [Proto.simplify, h.simplifyLoop, compact_of_reachable hr]

/-- The rounds of the rewrites come to an end, what is left once the blocks out of reach are dropped is in
normal form, and simplifying it again changes nothing. -/
theorem simplify_normal (hp : p.violation? = none) :
    (∃ q k, p.Rounds q k ∧ p.simplify = (q.compact.1, k + q.compact.2)) ∧ p.simplify.1.Normal ∧
      p.simplify.1.simplify = (p.simplify.1, 0) := by
  obtain ⟨hrounds, hstill⟩ := (wellShaped_of_violation hp).rounds (n := 2 * p.weight + 2) (by omega)
  obtain ⟨hcompact, hreachable⟩ := hstill.compact
  exact ⟨⟨_, _, hrounds, rfl⟩, hcompact.normal hreachable, hcompact.simplify hreachable⟩

def ring : Proto :=
  { id := 0
    blocks := [
      ⟨0, 0, 0, [.call (.global "f") [] 0], .branch (.global "c") 1 3⟩,
      ⟨1, 0, 0, [], .always 2⟩,
      ⟨2, 0, 0, [], .always 1⟩,
      ⟨3, 0, 0, [], .always 4⟩,
      ⟨4, 0, 0, [.call (.global "g") [] 0], .always 5⟩,
      ⟨5, 0, 0, [.ret [] 0], .leave⟩] }

theorem simplify_normal_ring : ring.violation? = none ∧
    (∃ q k, ring.Rounds q k ∧ ring.simplify = (q.compact.1, k + q.compact.2)) ∧ ring.simplify.1.Normal ∧
      ring.simplify.1.simplify = (ring.simplify.1, 0) :=
  ⟨by cbv, simplify_normal (by cbv)⟩

end Proto

end LuaLift
