import LuaLift.Proofs.Proto.AllDefined
import LuaLift.Proofs.Proto.Normal

/-!
What simplification does to the check: threaded jumps, joined blocks and dropped blocks leave the defined reads
as they are. A decided test may cut off the only write in front of a read.
-/

namespace LuaLift

namespace Proto

open Relation

variable {p : Proto} {s : Slot}

theorem reads_threadJumps {a : Point} : p.threadJumps.1.Reads .slot s a ↔ p.Reads .slot s a := by
  constructor
  · rintro (⟨ht, hs⟩ | ⟨hi, hs⟩)
    · exact .stmt (by rwa [body_threadJumps] at ht) hs
    · exact .jump (by rwa [body_threadJumps] at hi) (by rwa [jump_threadJumps, Jump.reads_map] at hs)
  · rintro (⟨ht, hs⟩ | ⟨hi, hs⟩)
    · exact .stmt (by rwa [body_threadJumps]) hs
    · exact .jump (by rwa [body_threadJumps]) (by rwa [jump_threadJumps, Jump.reads_map])

theorem writes_threadJumps {a : Point} : p.threadJumps.1.Writes .slot s a ↔ p.Writes .slot s a := by
  constructor
  · rintro ⟨ht, hs⟩
    exact .stmt (by rwa [body_threadJumps] at ht) hs
  · rintro ⟨ht, hs⟩
    exact .stmt (by rwa [body_threadJumps]) hs

theorem destination_of_reads {b : BlockId} {i : Nat} (h : p.Reads .slot s (b, i)) : p.destination b = b := by
  apply ChainEnds.destination
  apply chainEnds_self
  by_contra hgo
  obtain ⟨t, ht⟩ := Option.ne_none_iff_exists'.1 hgo
  obtain ⟨hbody, hjump⟩ := forward?_eq_some ht
  cases h with
  | stmt hs => simp [hbody] at hs
  | jump _ hk => simp [hjump, Jump.reads, Jump.condition?] at hk

theorem destination_of_lt {b : BlockId} {i : Nat} (h : i < (p.body b).length) : p.destination b = b := by
  apply ChainEnds.destination
  apply chainEnds_self
  by_contra hgo
  obtain ⟨t, ht⟩ := Option.ne_none_iff_exists'.1 hgo
  simp [(forward?_eq_some ht).1] at h

theorem flows_destination (b : BlockId) : p.Flows (b, 0) (p.destination b, 0) := by
  have hpath (n : Nat) : p.Flows (b, 0) (p.onward^[n] b, 0) := by
    induction n with
    | zero => exact .refl
    | succ n ih =>
      rw [Function.iterate_succ_apply']
      cases hf : p.forward? (p.onward^[n] b) with
      | none => rwa [onward_of_end hf]
      | some t =>
        obtain ⟨hbody, hjump⟩ := forward?_eq_some hf
        rw [onward_of_forward hf]
        exact ih.tail (.jump (by rw [hbody]; rfl) (by rw [hjump]; exact .head _))
  rcases destination_cases (p := p) b with ⟨n, hn, -⟩ | ⟨he, -⟩
  · exact hn ▸ hpath n
  · rw [he]
    exact .refl

theorem carries_threaded_back : Carries p.threadJumps.1 p s fun a => a where
  parameters h := h
  entry := .refl
  next := by
    rintro a c - (hi | ⟨hi, hc⟩)
    · rw [body_threadJumps] at hi
      exact .single (.stmt hi)
    · rw [body_threadJumps] at hi
      rw [jump_threadJumps, Jump.targets_map, List.mem_map] at hc
      obtain ⟨u, hu, rfl⟩ := hc
      exact .head (.jump hi hu) (flows_destination u)
  writes := by
    rintro ⟨b, i⟩ c - hw hnext
    obtain ⟨hi, rfl⟩ := hw.next_eq hnext
    rw [body_threadJumps] at hi
    exact ⟨writes_threadJumps.1 hw, _, .stmt hi, .refl⟩

theorem carries_threaded (hp : p.WellShaped) : Carries p p.threadJumps.1 s fun a => (p.destination a.1, a.2) where
  parameters h := h
  entry := by
    have hzero : p.forward? 0 = none :=
      Option.eq_none_iff_forall_ne_some.2 fun t ht => (hp.forward?_iff.1 ht).1.ne_zero rfl
    rw [(chainEnds_self hzero).destination]
    exact .refl
  next := by
    rintro a c - (hi | @⟨b, c, i, hi, hc⟩)
    · rw [destination_of_lt hi]
      exact .single (.stmt (by rwa [body_threadJumps]))
    · have hnext : p.threadJumps.1.Next (b, i) (p.destination c, 0) :=
        .jump (by rwa [body_threadJumps]) (by
          rw [jump_threadJumps, Jump.targets_map]
          exact List.mem_map_of_mem hc)
      -- An empty block that is passed over stays where it leads; any other jumps to where its target leads.
      rcases destination_cases (p := p) b with hend | ⟨he, -⟩
      · cases hf : p.forward? b with
        | none =>
          rw [(chainEnds_self hf).destination]
          exact .single hnext
        | some t =>
          obtain ⟨hbody, hjump⟩ := forward?_eq_some hf
          obtain rfl : c = t := by simpa [hjump, Jump.targets] using hc
          obtain rfl : i = 0 := by rw [hi, hbody]; rfl
          rw [(hend.tail hf).destination]
          exact .refl
      · rw [he]
        exact .single hnext
  writes := by
    rintro ⟨b, i⟩ c - hw hnext
    obtain ⟨hi, rfl⟩ := hw.next_eq hnext
    rw [destination_of_lt hi]
    exact ⟨writes_threadJumps.2 hw, _, .stmt (by rwa [body_threadJumps]), .refl⟩

theorem allDefined_threadJumps (hp : p.WellShaped) : p.threadJumps.1.AllDefined ↔ p.AllDefined := by
  constructor
  · intro h
    refine h.carried (fun _ => carries_threaded_back) (fun _ => carries_threaded hp) (fun {a s} _ hs => ?_)
      fun {a s} _ hs => ?_
    · rw [destination_of_reads hs]
      exact reads_threadJumps.2 hs
    · rw [destination_of_reads hs]
  · intro h
    refine h.carried (fun _ => carries_threaded hp) (fun _ => carries_threaded_back) (fun _ hs => reads_threadJumps.1 hs)
      fun {a s} _ hs => ?_
    rw [destination_of_reads (reads_threadJumps.1 hs)]

section Join

variable {b t : BlockId}

def joinedPoint (p : Proto) (b t : BlockId) (a : Point) : Point :=
  if a.1 = t then (b, (p.body b).length + a.2) else a

def partedPoint (p : Proto) (b t : BlockId) (a : Point) : Point :=
  if a.1 = b ∧ (p.body b).length ≤ a.2 then (t, a.2 - (p.body b).length) else a

variable (hp : p.WellShaped) (h : p.Joinable b t)
include hp h

theorem Joinable.getElem?_joinedPoint {c : BlockId} {i : Nat} (hi : i < (p.body c).length) :
    ((p.join b t).body (p.joinedPoint b t (c, i)).1)[(p.joinedPoint b t (c, i)).2]? = (p.body c)[i]? := by
  unfold joinedPoint
  by_cases hct : c = t
  · subst hct
    rw [if_pos rfl, (h.at_source hp).1, List.getElem?_append_right (Nat.le_add_right _ _), Nat.add_sub_cancel_left]
  · rw [if_neg hct]
    by_cases hcb : c = b
    · subst hcb
      rw [(h.at_source hp).1, List.getElem?_append_left hi]
    · rw [(h.elsewhere hp hcb hct).1]

theorem Joinable.next_joinedPoint {c : BlockId} {i : Nat} (hi : i < (p.body c).length) :
    (p.join b t).Next (p.joinedPoint b t (c, i)) (p.joinedPoint b t (c, i + 1)) := by
  have hat := h.getElem?_joinedPoint hp hi
  rw [List.getElem?_eq_getElem hi] at hat
  have hlt := (List.getElem?_eq_some_iff.1 hat).1
  unfold joinedPoint at hlt ⊢
  by_cases hct : c = t
  · rw [if_pos hct] at hlt
    rw [if_pos hct, if_pos hct]
    exact .stmt hlt
  · rw [if_neg hct] at hlt
    rw [if_neg hct, if_neg hct]
    exact .stmt hlt

theorem Joinable.joinedPoint_end {c : BlockId} (hcb : c ≠ b) :
    ∃ e, p.joinedPoint b t (c, (p.body c).length) = (e, ((p.join b t).body e).length) ∧
      (p.join b t).jump e = p.jump c := by
  unfold joinedPoint
  by_cases hct : c = t
  · subst hct
    refine ⟨b, ?_, (h.at_source hp).2⟩
    rw [if_pos rfl, (h.at_source hp).1, List.length_append]
  · refine ⟨c, ?_, (h.elsewhere hp hcb hct).2⟩
    rw [if_neg hct, (h.elsewhere hp hcb hct).1]

theorem Joinable.carries : Carries p (p.join b t) s (p.joinedPoint b t) where
  parameters hs := by
    obtain ⟨next, hn⟩ := h.exists_next hp
    simpa [Proto.join, hn, modify] using hs
  entry := by
    rw [joinedPoint, if_neg (Ne.symm h.ne_zero)]
    exact .refl
  next := by
    rintro a c ha (hi | @⟨c, u, i, hi, hu⟩)
    · exact .single (h.next_joinedPoint hp hi)
    · have hr := hp.isReachable_of_flows ha
      subst hi
      by_cases hcb : c = b
      · subst hcb
        obtain rfl : u = t := by simpa [h.jump, Jump.targets] using hu
        rw [joinedPoint, joinedPoint, if_neg (Ne.symm h.ne), if_pos rfl]
        exact .refl
      · obtain ⟨e, he, hjump⟩ := h.joinedPoint_end hp hcb
        rw [he, joinedPoint, if_neg (h.ne_of_target hr hcb hu)]
        exact .single (.jump rfl (hjump ▸ hu))
  writes := by
    rintro ⟨c, i⟩ d - hw hnext
    obtain ⟨hi, rfl⟩ := hw.next_eq hnext
    obtain ⟨ht, hs⟩ := hw
    rw [← h.getElem?_joinedPoint hp hi] at ht
    exact ⟨.stmt ht hs, _, h.next_joinedPoint hp hi, .refl⟩

theorem Joinable.getElem?_partedPoint {c : BlockId} (hct : c ≠ t) (i : Nat) :
    (p.body (p.partedPoint b t (c, i)).1)[(p.partedPoint b t (c, i)).2]? = ((p.join b t).body c)[i]? := by
  unfold partedPoint
  by_cases hcb : c = b
  · subst hcb
    rw [(h.at_source hp).1]
    by_cases hi : (p.body c).length ≤ i
    · rw [if_pos ⟨rfl, hi⟩, List.getElem?_append_right hi]
    · rw [if_neg (fun h => hi h.2), List.getElem?_append_left (Nat.lt_of_not_le hi)]
  · rw [if_neg (fun h => hcb h.1), (h.elsewhere hp hcb hct).1]

omit hp in
theorem Joinable.flows_partedPoint (c : BlockId) : p.Flows (c, 0) (p.partedPoint b t (c, 0)) := by
  unfold partedPoint
  split
  · next hc =>
    obtain ⟨rfl, hi⟩ := hc
    rw [Nat.zero_sub]
    refine .single (.jump (Nat.le_zero.1 hi).symm ?_)
    rw [h.jump]
    exact .head _
  · exact .refl

theorem Joinable.next_partedPoint {c : BlockId} {i : Nat} (hct : c ≠ t) (hi : i < ((p.join b t).body c).length) :
    ∃ d, p.Next (p.partedPoint b t (c, i)) d ∧ p.Flows d (p.partedPoint b t (c, i + 1)) := by
  have hat := h.getElem?_partedPoint hp hct i
  rw [List.getElem?_eq_getElem hi] at hat
  have hlt := (List.getElem?_eq_some_iff.1 hat).1
  refine ⟨((p.partedPoint b t (c, i)).1, (p.partedPoint b t (c, i)).2 + 1), .stmt hlt, ?_⟩
  unfold partedPoint
  by_cases hcb : c = b
  · subst hcb
    by_cases hle : (p.body c).length ≤ i
    · rw [if_pos ⟨rfl, hle⟩, if_pos ⟨rfl, Nat.le_succ_of_le hle⟩, Nat.sub_add_comm hle]
      exact .refl
    · rw [if_neg fun h => hle h.2]
      split
      · next hend =>
        -- The path goes on through the jump that is gone.
        have hend : i + 1 = (p.body c).length := Nat.le_antisymm (Nat.lt_of_not_le hle) hend.2
        rw [hend, Nat.sub_self]
        exact .single (.jump rfl (by rw [h.jump]; exact .head _))
      · exact .refl
  · rw [if_neg fun h => hcb h.1, if_neg fun h => hcb h.1]
    exact .refl

theorem Joinable.partedPoint_end {c : BlockId} (hct : c ≠ t) :
    ∃ e, p.partedPoint b t (c, ((p.join b t).body c).length) = (e, (p.body e).length) ∧
      p.jump e = (p.join b t).jump c := by
  unfold partedPoint
  by_cases hcb : c = b
  · subst hcb
    refine ⟨t, ?_, (h.at_source hp).2.symm⟩
    rw [(h.at_source hp).1, List.length_append, if_pos ⟨rfl, Nat.le_add_right _ _⟩, Nat.add_sub_cancel_left]
  · refine ⟨c, ?_, (h.elsewhere hp hcb hct).2.symm⟩
    rw [if_neg fun h => hcb h.1, (h.elsewhere hp hcb hct).1]

theorem Joinable.target_ne {c u : BlockId} (hc : (Flow.of p).isReachable c = true) (hct : c ≠ t)
    (hu : u ∈ ((p.join b t).jump c).targets) : (Flow.of p).isReachable u = true ∧ u ≠ t := by
  by_cases hcb : c = b
  · subst hcb
    rw [(h.at_source hp).2] at hu
    have hr := h.reachable_next hp
    exact ⟨hp.isReachable_target hr hu, h.ne_of_target hr h.ne hu⟩
  · rw [(h.elsewhere hp hcb hct).2] at hu
    exact ⟨hp.isReachable_target hc hu, h.ne_of_target hc hcb hu⟩

theorem Joinable.flows_ne {a : Point} (ha : (p.join b t).Flows (0, 0) a) :
    (Flow.of p).isReachable a.1 = true ∧ a.1 ≠ t := by
  induction ha with
  | refl => exact ⟨hp.isReachable_zero, Ne.symm h.ne_zero⟩
  | tail _ hnext ih =>
    cases hnext with
    | stmt => exact ih
    | jump _ hu => exact h.target_ne hp ih.1 ih.2 hu

theorem Joinable.carries_back : Carries (p.join b t) p s (p.partedPoint b t) where
  parameters hs := by
    obtain ⟨next, hn⟩ := h.exists_next hp
    simpa [Proto.join, hn, modify] using hs
  entry := h.flows_partedPoint 0
  next := by
    rintro a c ha (hi | @⟨c, u, i, hi, hu⟩)
    · obtain ⟨d, hd, hflows⟩ := h.next_partedPoint hp (h.flows_ne hp ha).2 hi
      exact hflows.head hd
    · subst hi
      obtain ⟨e, he, hjump⟩ := h.partedPoint_end hp (h.flows_ne hp ha).2
      rw [he]
      exact .head (.jump rfl (hjump ▸ hu)) (h.flows_partedPoint u)
  writes := by
    rintro ⟨c, i⟩ d ha hw hnext
    obtain ⟨hi, rfl⟩ := hw.next_eq hnext
    obtain ⟨ht, hs⟩ := hw
    have hct := (h.flows_ne hp ha).2
    rw [← h.getElem?_partedPoint hp hct] at ht
    exact ⟨.stmt ht hs, h.next_partedPoint hp hct hi⟩

theorem Joinable.reads_joinedPoint {a : Point} (hs : p.Reads .slot s a) :
    (p.join b t).Reads .slot s (p.joinedPoint b t a) ∧ p.partedPoint b t (p.joinedPoint b t a) = a := by
  obtain ⟨c, i⟩ := a
  have hback (hci : c = b → i < (p.body b).length) : p.partedPoint b t (p.joinedPoint b t (c, i)) = (c, i) := by
    unfold joinedPoint partedPoint
    by_cases hct : c = t
    · subst hct
      simp
    · rw [if_neg hct, if_neg fun hle => Nat.not_le_of_lt (hci hle.1) hle.2]
  cases hs with
  | stmt ht hs =>
    have hi := (List.getElem?_eq_some_iff.1 ht).1
    rw [← h.getElem?_joinedPoint hp hi] at ht
    exact ⟨.stmt ht hs, hback fun he => he ▸ hi⟩
  | jump hi hs =>
    subst hi
    have hcb : c ≠ b := by
      rintro rfl
      simp [h.jump, Jump.reads, Jump.condition?] at hs
    obtain ⟨e, he, hjump⟩ := h.joinedPoint_end hp hcb
    exact ⟨he ▸ .jump rfl (hjump ▸ hs), hback fun he => absurd he hcb⟩

theorem Joinable.reads_partedPoint {a : Point} (hat : a.1 ≠ t) (hs : (p.join b t).Reads .slot s a) :
    p.Reads .slot s (p.partedPoint b t a) := by
  cases hs with
  | stmt ht hs =>
    rw [← h.getElem?_partedPoint hp hat] at ht
    exact .stmt ht hs
  | jump hi hs =>
    subst hi
    obtain ⟨e, he, hjump⟩ := h.partedPoint_end hp hat
    exact he ▸ .jump rfl (hjump ▸ hs)

omit hp h in
theorem joinedPoint_partedPoint {a : Point} (hat : a.1 ≠ t) : p.joinedPoint b t (p.partedPoint b t a) = a := by
  unfold partedPoint
  by_cases hb : a.1 = b ∧ (p.body b).length ≤ a.2
  · obtain ⟨rfl, hle⟩ := hb
    rw [if_pos ⟨rfl, hle⟩, joinedPoint, if_pos rfl, Nat.add_sub_cancel' hle]
  · rw [if_neg hb, joinedPoint, if_neg hat]

theorem Joinable.allDefined : (p.join b t).AllDefined ↔ p.AllDefined := by
  constructor
  · intro hq
    exact hq.carried (fun _ => h.carries_back hp) (fun _ => h.carries hp)
      (fun _ hs => (h.reads_joinedPoint hp hs).1) fun _ hs => (h.reads_joinedPoint hp hs).2
  · intro hq
    exact hq.carried (fun _ => h.carries hp) (fun _ => h.carries_back hp)
      (fun ha hs => h.reads_partedPoint hp (h.flows_ne hp ha).2 hs)
      fun ha _ => joinedPoint_partedPoint (h.flows_ne hp ha).2

end Join

section Compact

variable (hp : p.WellShaped)
include hp

theorem WellShaped.body_compactId {b : BlockId} (hb : (Flow.of p).isReachable b = true) :
    p.compacted.body (compactId (.of p) b) = p.body b := (hp.at_compactId hb).1

theorem WellShaped.targets_compactId {b u : BlockId} (hb : (Flow.of p).isReachable b = true) :
    u ∈ (p.compacted.jump (compactId (.of p) b)).targets ↔ ∃ t ∈ (p.jump b).targets, compactId (.of p) t = u := by
  rw [(hp.at_compactId hb).2, Jump.targets_map, List.mem_map]

theorem WellShaped.carries_compacted : Carries p p.compacted s fun a => (compactId (.of p) a.1, a.2) where
  parameters hs := hs
  entry := .refl
  next := by
    rintro a c ha (hi | @⟨b, u, i, hi, hu⟩)
    all_goals have hr := hp.isReachable_of_flows ha
    · exact .single (.stmt (by rwa [hp.body_compactId hr]))
    · exact .single (.jump (by rwa [hp.body_compactId hr]) ((hp.targets_compactId hr).2 ⟨u, hu, rfl⟩))
  writes := by
    rintro ⟨b, i⟩ c ha hw hnext
    have hr := hp.isReachable_of_flows ha
    obtain ⟨hi, rfl⟩ := hw.next_eq hnext
    obtain ⟨ht, hs⟩ := hw
    exact ⟨.stmt (by rwa [hp.body_compactId hr]) hs, _, .stmt (by rwa [hp.body_compactId hr]), .refl⟩

omit hp in
noncomputable def sourceId (p : Proto) : BlockId → BlockId :=
  Function.invFunOn (compactId (.of p)) {b | (Flow.of p).isReachable b = true}

omit hp in
theorem sourceId_compactId {b : BlockId} (hb : (Flow.of p).isReachable b = true) :
    p.sourceId (compactId (.of p) b) = b := by
  have hex : ∃ a ∈ {b | (Flow.of p).isReachable b = true}, compactId (.of p) a = compactId (.of p) b := ⟨b, hb, rfl⟩
  exact (compactId_eq_iff (Function.invFunOn_mem hex) hb).1 (Function.invFunOn_eq hex)

theorem WellShaped.exists_source {a : Point} (ha : p.compacted.Flows (0, 0) a) :
    ∃ b, (Flow.of p).isReachable b = true ∧ a = (compactId (.of p) b, a.2) := by
  obtain ⟨b, hb, he⟩ := hp.exists_compactId (hp.compacted.lt_of_isReachable (hp.compacted.isReachable_of_flows ha))
  exact ⟨b, hb, by rw [he]⟩

theorem WellShaped.carries_compacted_back : Carries p.compacted p s fun a => (p.sourceId a.1, a.2) where
  parameters hs := hs
  entry := by
    rw [show p.sourceId 0 = 0 from sourceId_compactId hp.isReachable_zero]
    exact .refl
  next := by
    rintro ⟨j, i⟩ c ha hnext
    obtain ⟨b, hb, he⟩ := hp.exists_source ha
    cases he
    cases hnext with
    | stmt hi =>
      rw [hp.body_compactId hb] at hi
      exact .single (.stmt (by rwa [sourceId_compactId hb]))
    | jump hi hu =>
      rw [hp.body_compactId hb] at hi
      obtain ⟨t, ht, rfl⟩ := (hp.targets_compactId hb).1 hu
      rw [sourceId_compactId hb, sourceId_compactId (hp.isReachable_target hb ht)]
      exact .single (.jump hi ht)
  writes := by
    rintro ⟨j, i⟩ c ha hw hnext
    obtain ⟨b, hb, he⟩ := hp.exists_source ha
    cases he
    obtain ⟨hi, rfl⟩ := hw.next_eq hnext
    obtain ⟨ht, hs⟩ := hw
    rw [hp.body_compactId hb] at hi ht
    rw [sourceId_compactId hb]
    exact ⟨.stmt ht hs, _, .stmt hi, .refl⟩

theorem WellShaped.reads_compactId {b : BlockId} {i : Nat} (hb : (Flow.of p).isReachable b = true) :
    p.compacted.Reads .slot s (compactId (.of p) b, i) ↔ p.Reads .slot s (b, i) := by
  have hbody := hp.body_compactId hb
  have hjump : (p.compacted.jump (compactId (.of p) b)).reads .slot = (p.jump b).reads .slot := by
    rw [(hp.at_compactId hb).2, Jump.reads_map]
  constructor
  · rintro (⟨ht, hs⟩ | ⟨hi, hs⟩)
    · exact .stmt (hbody ▸ ht) hs
    · exact .jump (hbody ▸ hi) (hjump ▸ hs)
  · rintro (⟨ht, hs⟩ | ⟨hi, hs⟩)
    · exact .stmt (hbody ▸ ht) hs
    · exact .jump (hbody ▸ hi) (hjump ▸ hs)

theorem WellShaped.allDefined_compacted : p.compacted.AllDefined ↔ p.AllDefined := by
  constructor
  · intro h
    refine h.carried (fun _ => hp.carries_compacted_back) (fun _ => hp.carries_compacted) ?_ ?_
    · rintro ⟨b, i⟩ s ha hs
      exact (hp.reads_compactId (hp.isReachable_of_flows ha)).2 hs
    · rintro ⟨b, i⟩ s ha -
      rw [sourceId_compactId (hp.isReachable_of_flows ha)]
  · intro h
    refine h.carried (fun _ => hp.carries_compacted) (fun _ => hp.carries_compacted_back) ?_ ?_
    · rintro ⟨j, i⟩ s ha hs
      obtain ⟨b, hb, he⟩ := hp.exists_source ha
      cases he
      rw [sourceId_compactId hb]
      exact (hp.reads_compactId hb).1 hs
    · rintro ⟨j, i⟩ s ha -
      obtain ⟨b, hb, he⟩ := hp.exists_source ha
      cases he
      rw [sourceId_compactId hb]

end Compact

def Undecided (p : Proto) : Prop := ∀ b, (p.jump b).isDecided = false

theorem undecided_decideTests : p.decideTests.1.Undecided := by
  intro b
  rw [decideTests_fst, jump_mapJumps rfl]
  exact Jump.isDecided_decide _

theorem Undecided.threadJumps (h : p.Undecided) : p.threadJumps.1.Undecided := by
  intro b
  rw [jump_threadJumps, Jump.isDecided_map]
  exact h b

theorem Undecided.joinFirst (h : p.Undecided) (hp : p.WellShaped) : p.joinFirst.1.Undecided := by
  rcases joinFirst_cases p with he | ⟨b, t, hb, ht, he⟩ <;> rw [he]
  · exact h
  · have hj := hp.joinable hb ht
    intro c
    by_cases hcb : c = b
    · rw [hcb, (hj.at_source hp).2]
      exact h t
    · by_cases hct : c = t
      · subst hct
        obtain ⟨next, hn⟩ := hj.exists_next hp
        have hempty := getElem?_join hn hj.ne c
        rw [hn, Option.map_some, if_neg hcb, if_pos rfl] at hempty
        rw [jump, hempty]
        rfl
      · rw [(hj.elsewhere hp hcb hct).2]
        exact h c

theorem WellShaped.allDefined_joinFirst (hp : p.WellShaped) : p.joinFirst.1.AllDefined ↔ p.AllDefined := by
  rcases joinFirst_cases p with he | ⟨b, t, hb, ht, he⟩ <;> rw [he]
  exact (hp.joinable hb ht).allDefined hp

theorem WellShaped.round_undecided (hp : p.WellShaped) (h : p.Undecided) :
    p.simplifyStep.1.WellShaped ∧ p.simplifyStep.1.Undecided ∧ (p.simplifyStep.1.AllDefined ↔ p.AllDefined) := by
  have hd : p.decideTests = (p, 0) := decideTests_of_zero (decideTests_eq_zero.2 h)
  have hstep : p.simplifyStep.1 = p.threadJumps.1.joinFirst.1 := by rw [Proto.simplifyStep, hd]
  rw [hstep]
  exact ⟨hp.threadJumps.joinFirst, h.threadJumps.joinFirst hp.threadJumps,
    hp.threadJumps.allDefined_joinFirst.trans (allDefined_threadJumps hp)⟩

theorem WellShaped.allDefined_simplify (hp : p.WellShaped) : p.simplify.1.AllDefined ↔ p.decideTests.1.AllDefined := by
  have hloop : (simplifyLoop (2 * p.weight + 2) p).1.AllDefined ↔ p.decideTests.1.AllDefined := by
    rw [simplifyLoop]
    dsimp only
    split
    · next hzero =>
      rw [decideTests_of_zero (decideTests_eq_zero.2 (hp.still hzero).decided)]
    · have hfirst : p.simplifyStep.1 = p.decideTests.1.simplifyStep.1 := by
        have hagain := decideTests_of_zero (decideTests_eq_zero.2 (undecided_decideTests (p := p)))
        simp only [Proto.simplifyStep, hagain]
      rw [hfirst]
      refine (simplifyLoop_induct (P := fun q => q.WellShaped ∧ q.Undecided ∧
        (q.AllDefined ↔ p.decideTests.1.AllDefined)) (fun q hq => ?_) _
          (hp.decideTests.round_undecided undecided_decideTests)).2.2
      obtain ⟨hshaped, hundecided, hiff⟩ := hq.1.round_undecided hq.2.1
      exact ⟨hshaped, hundecided, hiff.trans hq.2.2⟩
  have hshaped := simplifyLoop_induct (P := WellShaped) (fun _ h => h.simplifyStep) (2 * p.weight + 2) hp
  rw [← hloop, Proto.simplify]
  rcases compact_cases (simplifyLoop (2 * p.weight + 2) p).1 with he | he <;> simp only [he]
  exact hshaped.allDefined_compacted

theorem simplify_accepted (hp : p.violation? = none) : p.simplify.1.structuralViolation? = none ∧
    (p.simplify.1.violation? = none ↔ p.decideTests.1.violation? = none) := by
  have hshaped := wellShaped_of_violation hp
  refine ⟨hshaped.simplify.structuralViolation?, ?_⟩
  rw [violation?_eq_none_iff_allDefined, violation?_eq_none_iff_allDefined, hshaped.allDefined_simplify,
    and_iff_right hshaped.simplify, and_iff_right hshaped.decideTests]

theorem simplify_accepted_of_undecided (hp : p.violation? = none) (h : p.decideTests.2 = 0) :
    p.simplify.1.violation? = none := by
  rw [(simplify_accepted hp).2, decideTests_of_zero h]
  exact hp

def bypass : Proto :=
  { id := 0
    blocks := [
      ⟨0, 0, 0, [], .branch (.boolean true) 1 2⟩,
      ⟨1, 0, 0, [], .always 3⟩,
      ⟨2, 0, 0, [.assign ⟨[.slot 0], [.boolean false], false, 0⟩], .always 3⟩,
      ⟨3, 0, 0, [.call (.global "f") [.slot 0] 0], .leave⟩] }

example : bypass.violation? = none ∧ bypass.simplify.1.violation? = some (.undefinedSlot 0 0) := ⟨by cbv, by cbv⟩

end Proto

end LuaLift
