import LuaLift.Proofs.Meaning
import LuaLift.Proofs.Proto.Shape
import LuaLift.Proto.Simplify
import Mathlib

namespace LuaLift

open Machine

variable {σ : Type} {m : Meaning σ} {judge : Judge σ}

def Judge.Plain (judge : Judge σ) : Prop := ∀ c s, judge (.constant c) s = ⟨[], c.truthy, s⟩

theorem Meaning.whole_plain (m : Meaning σ) : m.whole.Plain := fun _ _ => rfl

namespace Jump

theorem follow_map (f : BlockId → BlockId) (es : List Event) (s : σ) (j : Jump) :
    (j.map f).follow judge es s =
      ((j.follow judge es s).1, (j.follow judge es s).2.1.map f, (j.follow judge es s).2.2) := by
  cases j with
  | always t => rfl
  | branch c t e => simp [map, follow, apply_ite f]
  | leave => rfl

theorem follow_decide (hj : judge.Plain) (es : List Event) (s : σ) (j : Jump) :
    j.decide.follow judge es s = j.follow judge es s := by
  unfold decide
  split
  · simp [follow, hj _ s]
  · rfl

theorem redirect_eq {f : BlockId → BlockId} (hf : ∀ t, f (f t) = f t) (j : Jump) :
    j.redirect f = (j.map f, j.targets.countP fun t => f t ≠ t) := by
  cases j with
  | always t => by_cases ht : f t = t <;> simp [redirect, targets, retarget, map, ht]
  | leave => rfl
  | branch c t e =>
    by_cases ht : f t = t
    · by_cases he : f e = e
      · simp [redirect, targets, map, ht, he]
      · have hte : t ≠ e := fun h => he (h ▸ ht)
        simp [redirect, targets, retarget, map, ht, he, hte]
    · by_cases he : f e = e
      · have hte : e ≠ t := fun h => ht (h ▸ he)
        simp [redirect, targets, retarget, map, ht, he, hte]
      · -- What the first edge was led to is led on no further, so it is not the second target.
        have hfe : f t ≠ e := fun h => he (h ▸ hf t)
        by_cases hte : e = t
        · simp [redirect, targets, retarget, map, ht, hte]
        · simp [redirect, targets, retarget, map, ht, he, hte, hfe]

theorem mem_targets_decide {j : Jump} {t : BlockId} (h : t ∈ j.decide.targets) : t ∈ j.targets := by
  unfold decide at h
  split at h
  · simp only [targets, List.mem_singleton] at h
    subst h
    split <;> simp [targets]
  · exact h

end Jump

namespace Proto

variable {p : Proto}

def mapJumps (f : Jump → Jump) (p : Proto) : Proto :=
  { p with blocks := p.blocks.map fun b => { b with jump := f b.jump } }

theorem body_mapJumps (f : Jump → Jump) (b : BlockId) : (p.mapJumps f).body b = p.body b := by
  simp only [body, mapJumps, List.getElem?_map]
  cases p.blocks[b]? <;> rfl

theorem jump_mapJumps {f : Jump → Jump} (hf : f .leave = .leave) (b : BlockId) :
    (p.mapJumps f).jump b = f (p.jump b) := by
  simp only [jump, mapJumps, List.getElem?_map]
  cases p.blocks[b]? with
  | none => exact hf.symm
  | some c => rfl

theorem WellShaped.mapJumps (hp : p.WellShaped) {f : Jump → Jump}
    (ht : ∀ b ∈ p.blocks, ∀ t ∈ (f b.jump).targets, t < p.blocks.length)
    (hl : ∀ j : Jump, j.targets = [] → (f j).targets = []) : (p.mapJumps f).WellShaped where
  nonempty := by simpa [Proto.mapJumps] using hp.nonempty
  numbered {i b} hb := by
    simp only [Proto.mapJumps, List.getElem?_map, Option.map_eq_some_iff] at hb
    obtain ⟨c, hc, rfl⟩ := hb
    have := hp.numbered hc
    exact this
  inside {b} hb t h := by
    simp only [Proto.mapJumps, List.mem_map] at hb
    obtain ⟨c, hc, rfl⟩ := hb
    simpa [Proto.mapJumps] using ht c hc t h
  returns {b} hb l r s he hs := by
    simp only [Proto.mapJumps, List.mem_map] at hb
    obtain ⟨c, hc, rfl⟩ := hb
    exact (hp.returns hc he hs).imp_right (hl c.jump)
  undeclared {b} hb := by
    simp only [Proto.mapJumps, List.mem_map] at hb
    obtain ⟨c, hc, rfl⟩ := hb
    have := hp.undeclared hc
    exact this

theorem decideTests_fst : p.decideTests.1 = p.mapJumps Jump.decide := rfl

theorem WellShaped.decideTests (hp : p.WellShaped) : p.decideTests.1.WellShaped := by
  refine hp.mapJumps (fun b hb t ht => hp.inside hb t (Jump.mem_targets_decide ht)) fun j hj => ?_
  rw [List.eq_nil_iff_forall_not_mem] at hj ⊢
  exact fun t ht => hj t (Jump.mem_targets_decide ht)

theorem decideTests_machine (hj : judge.Plain) :
    p.decideTests.1.machine m judge = p.machine m judge := by
  unfold machine
  congr 1
  funext c
  obtain ⟨b | b, s⟩ := c
  · rfl
  · simp only [decideTests_fst, body_mapJumps, jump_mapJumps (f := Jump.decide) rfl, Jump.follow_decide hj]

theorem forward?_eq_some {b t : BlockId} (h : p.forward? b = some t) :
    p.body b = [] ∧ p.jump b = .always t := by
  unfold forward? at h
  split at h
  · next he =>
    split at h
    · cases h
      simp [body, jump, he]
    · cases h
  · cases h

theorem follow_steps {n : Nat} {b d : BlockId} (h : p.follow n b = some d) (s : σ) :
    ∃ k, (p.machine m judge).Steps (some b, s) [] (some d, s) k := by
  induction n generalizing b with
  | zero => cases h
  | succ n ih =>
    unfold follow at h
    cases hf : p.forward? b with
    | none =>
      rw [hf] at h
      cases h
      exact ⟨0, .refl _⟩
    | some t =>
      rw [hf] at h
      obtain ⟨k, hk⟩ := ih h
      obtain ⟨hb, hj⟩ := forward?_eq_some hf
      have hn : (p.machine m judge).next (some b, s) = some ([], (some t, s)) := by
        simp [machine_next_some, hb, hj, Jump.follow]
      exact ⟨1 + k, (Steps.one hn).after hk⟩

theorem destination_steps (b : BlockId) (s : σ) :
    ∃ k, (p.machine m judge).Steps (some b, s) [] (some (p.destination b), s) k := by
  unfold destination
  cases hf : p.follow (p.blocks.length + 1) b with
  | none => exact ⟨0, .refl _⟩
  | some d => exact follow_steps hf s

theorem follow_lt (hp : p.WellShaped) {n : Nat} {b d : BlockId} (hb : b < p.blocks.length)
    (h : p.follow n b = some d) : d < p.blocks.length := by
  induction n generalizing b with
  | zero => cases h
  | succ n ih =>
    unfold follow at h
    cases hf : p.forward? b with
    | none => rw [hf] at h; cases h; exact hb
    | some t =>
      rw [hf] at h
      refine ih (hp.targets_lt (b := b) ?_) h
      rw [(forward?_eq_some hf).2]
      exact .head _

theorem destination_lt (hp : p.WellShaped) {b : BlockId} (hb : b < p.blocks.length) :
    p.destination b < p.blocks.length := by
  unfold destination
  cases hf : p.follow (p.blocks.length + 1) b with
  | none => exact hb
  | some d => exact follow_lt hp hb hf

theorem forward?_follow {n : Nat} {b d : BlockId} (h : p.follow n b = some d) : p.forward? d = none := by
  induction n generalizing b with
  | zero => cases h
  | succ n ih =>
    unfold follow at h
    cases hf : p.forward? b with
    | none =>
      rw [hf] at h
      cases h
      exact hf
    | some t =>
      rw [hf] at h
      exact ih h

theorem destination_destination (b : BlockId) : p.destination (p.destination b) = p.destination b := by
  cases hf : p.follow (p.blocks.length + 1) b with
  | none =>
    have hb : p.destination b = b := by rw [destination, hf, Option.getD_none]
    rw [hb, hb]
  | some d =>
    have hb : p.destination b = d := by rw [destination, hf, Option.getD_some]
    rw [hb, destination, follow, forward?_follow hf, Option.getD_some]

/-- Threading takes all edges at once to where they lead. -/
theorem threadJumps_eq : p.threadJumps = (p.mapJumps (·.map p.destination),
    (p.blocks.flatMap (·.jump.targets)).countP fun t => p.destination t ≠ t) := by
  simp only [threadJumps, mapJumps, Jump.redirect_eq destination_destination, List.map_map, Function.comp_def,
    Prod.mk.injEq, true_and]
  induction p.blocks with
  | nil => rfl
  | cons b l ih => rw [List.map_cons, total, ih, List.flatMap_cons, List.countP_append]

theorem threadJumps_fst : p.threadJumps.1 = p.mapJumps (·.map p.destination) := congrArg Prod.fst threadJumps_eq

theorem WellShaped.threadJumps (hp : p.WellShaped) : p.threadJumps.1.WellShaped := by
  rw [threadJumps_fst]
  refine hp.mapJumps (fun b hb t ht => ?_) fun j hj => ?_
  · rw [Jump.targets_map, List.mem_map] at ht
    obtain ⟨u, hu, rfl⟩ := ht
    exact destination_lt hp (hp.inside hb u hu)
  · rw [Jump.targets_map, hj, List.map_nil]

theorem threadJumps_sameRuns (c : WalkConfig σ) :
    SameRuns (p.machine m judge) (p.threadJumps.1.machine m judge) Prod.snd Prod.snd c c := by
  rw [threadJumps_fst]
  refine sameRuns_of_steps (P := fun _ => True) (fun b _ s => ?_) (fun _ _ => trivial) c.2
  have hp := machine_next_some p m judge b s
  have hq := machine_next_some (p.mapJumps (·.map p.destination)) m judge b s
  rw [body_mapJumps, jump_mapJumps (f := (·.map p.destination)) rfl,
    Jump.follow_map] at hq
  generalize (p.jump b).follow judge ((p.body b).map .stmt) (m.runAll (p.body b) s) = v at hp hq
  obtain ⟨es, t | t, s'⟩ := v
  · exact ⟨es, _, _, 1, 1, Nat.one_pos, Nat.one_pos, .one hp, .one hq, fun _ _ => trivial⟩
  · obtain ⟨k, hk⟩ := @destination_steps _ m judge p t s'
    have := (Steps.one hp).trans hk
    rw [List.append_nil] at this
    exact ⟨es, _, _, 1 + k, 1, by omega, Nat.one_pos, this, .one hq, fun _ _ => trivial⟩

structure Joinable (p : Proto) (b t : BlockId) : Prop where
  reachable : (Flow.of p).isReachable b = true
  jump : p.jump b = .always t
  ne : t ≠ b
  ne_zero : t ≠ 0
  only : ∀ c, (Flow.of p).isReachable c = true → t ∈ (p.jump c).targets → c = b

theorem WellShaped.joinable (hp : p.WellShaped) {b t : BlockId} (hb : b ∈ (Flow.of p).order)
    (h : p.joinable? (Flow.of p) b = some t) : p.Joinable b t := by
  unfold joinable? at h
  split at h
  · next u hj =>
    split at h
    · next hu =>
      cases h
      refine ⟨Flow.mem_order.1 hb, hj, hu.1, hu.2.1, fun c hc ht => ?_⟩
      have : c ∈ (Flow.of p).predecessors t := hp.mem_predecessors.2 ⟨hc, ht⟩
      rw [hu.2.2] at this
      simpa using this
    · cases h
  · cases h

theorem joinFirst_cases (p : Proto) : p.joinFirst = (p, 0) ∨
    ∃ b t, b ∈ (Flow.of p).order ∧ p.joinable? (Flow.of p) b = some t ∧ p.joinFirst = (p.join b t, 1) := by
  unfold joinFirst
  simp only
  split
  · next b t h =>
    obtain ⟨c, hc, hm⟩ := List.exists_of_findSome?_eq_some h
    obtain ⟨u, hu, he⟩ := Option.map_eq_some_iff.1 hm
    cases he
    exact .inr ⟨b, t, hc, hu, rfl⟩
  · exact .inl rfl

section Join

variable {b t : BlockId}

theorem getElem?_join {next : Block} (ht : p.blocks[t]? = some next) (hbt : t ≠ b) (c : BlockId) :
    (p.join b t).blocks[c]? = (p.blocks[c]?).map fun x =>
      if c = b then
        { x with
          body := x.body ++ next.body
          jump := next.jump
          lastAddress := max x.lastAddress next.lastAddress }
      else if c = t then { x with body := [], jump := .leave }
      else x := by
  simp only [join, ht, modify, List.getElem?_modify]
  cases p.blocks[c]? with
  | none => simp
  | some x =>
    by_cases hcb : c = b
    · subst hcb
      simp [hbt]
    · by_cases hct : c = t
      · subst hct
        simp [Ne.symm hbt, hcb]
      · simp [Ne.symm hcb, Ne.symm hct, hcb, hct]

theorem Joinable.exists_next (hp : p.WellShaped) (h : p.Joinable b t) :
    ∃ next, p.blocks[t]? = some next := by
  have : t < p.blocks.length := hp.targets_lt (b := b) (by rw [h.jump]; exact .head _)
  exact ⟨_, List.getElem?_eq_getElem this⟩

theorem Joinable.exists_block (hp : p.WellShaped) (h : p.Joinable b t) :
    ∃ c, p.blocks[b]? = some c :=
  ⟨_, List.getElem?_eq_getElem (hp.lt_of_isReachable h.reachable)⟩

theorem Joinable.at_source (hp : p.WellShaped) (h : p.Joinable b t) :
    (p.join b t).body b = p.body b ++ p.body t ∧ (p.join b t).jump b = p.jump t := by
  obtain ⟨next, hn⟩ := h.exists_next hp
  obtain ⟨c, hc⟩ := h.exists_block hp
  have := getElem?_join hn h.ne b
  rw [hc] at this
  simp [body, Proto.jump, this, hc, hn]

theorem Joinable.elsewhere (hp : p.WellShaped) (h : p.Joinable b t) {c : BlockId} (hb : c ≠ b)
    (ht : c ≠ t) : (p.join b t).body c = p.body c ∧ (p.join b t).jump c = p.jump c := by
  obtain ⟨next, hn⟩ := h.exists_next hp
  have := getElem?_join hn h.ne c
  simp only [hb, ht, if_false, Option.map_id'] at this
  simp [body, Proto.jump, this]

theorem Joinable.ne_of_target (h : p.Joinable b t) {c u : BlockId}
    (hc : (Flow.of p).isReachable c = true) (hcb : c ≠ b) (hu : u ∈ (p.jump c).targets) : u ≠ t := by
  rintro rfl
  exact hcb (h.only c hc hu)

theorem Joinable.reachable_next (hp : p.WellShaped) (h : p.Joinable b t) :
    (Flow.of p).isReachable t = true :=
  hp.isReachable_target h.reachable (by rw [h.jump]; exact .head _)

theorem Joinable.parts (h : p.Joinable b t) {next : Block} (hn : p.blocks[t]? = some next) {i : Nat} {c : Block}
    (hc : (p.join b t).blocks[i]? = some c) : ∃ x, p.blocks[i]? = some x ∧ c.id = x.id ∧
      (c.body = x.body ∧ c.jump = x.jump ∨ c.body = [] ∧ c.jump = .leave ∨
        x.jump.targets ≠ [] ∧ c.body = x.body ++ next.body ∧ c.jump = next.jump) := by
  rw [getElem?_join hn h.ne, Option.map_eq_some_iff] at hc
  obtain ⟨x, hx, rfl⟩ := hc
  refine ⟨x, hx, ?_⟩
  by_cases hib : i = b
  · subst hib
    have : x.jump = .always t := by simpa [Proto.jump, hx] using h.jump
    simp [this, Jump.targets]
  · by_cases hit : i = t
    · subst hit
      simp [hib]
    · simp [hib, hit]

theorem WellShaped.join (hp : p.WellShaped) (h : p.Joinable b t) : (p.join b t).WellShaped := by
  obtain ⟨next, hn⟩ := h.exists_next hp
  have hnext := List.mem_of_getElem? hn
  have hlen : (p.join b t).blocks.length = p.blocks.length := by simp [Proto.join, hn, modify]
  have parts {c : Block} (hc : c ∈ (p.join b t).blocks) : ∃ x ∈ p.blocks,
      c.body = x.body ∧ c.jump = x.jump ∨ c.body = [] ∧ c.jump = .leave ∨
        x.jump.targets ≠ [] ∧ c.body = x.body ++ next.body ∧ c.jump = next.jump := by
    obtain ⟨i, hi⟩ := List.mem_iff_getElem?.1 hc
    obtain ⟨x, hx, -, hparts⟩ := h.parts hn hi
    exact ⟨x, List.mem_of_getElem? hx, hparts⟩
  refine ⟨hlen ▸ hp.nonempty, fun {i c} hi => ?_, fun {c} hc u hu => ?_,
    fun {c} hc l r s he hs => ?_, fun {c} hc s hs => ?_⟩
  · obtain ⟨x, hx, hid, -⟩ := h.parts hn hi
    exact hid.trans (hp.numbered hx)
  · rw [hlen]
    obtain ⟨x, hx, ⟨-, hj⟩ | ⟨-, hj⟩ | ⟨-, -, hj⟩⟩ := parts hc <;> rw [hj] at hu
    · exact hp.inside hx u hu
    · cases hu
    · exact hp.inside hnext u hu
  · obtain ⟨x, hx, ⟨hb, hj⟩ | ⟨hb, -⟩ | ⟨ht, hb, hj⟩⟩ := parts hc
    · rw [hb] at he
      rw [hj]
      exact hp.returns hx he hs
    · simp [hb] at he
    · rw [hb] at he
      rw [hj]
      rcases List.append_eq_append_iff.1 he with ⟨k, hl, hk⟩ | ⟨k, hl, hk⟩
      · exact hp.returns hnext hk hs
      · cases k with
        | nil => exact hp.returns hnext (l := []) hk.symm hs
        | cons z k =>
          cases hk
          exact absurd (hp.returns hx hl hs).2 ht
  · obtain ⟨x, hx, ⟨hb, -⟩ | ⟨hb, -⟩ | ⟨-, hb, -⟩⟩ := parts hc <;> rw [hb] at hs
    · exact hp.undeclared hx s hs
    · cases hs
    · rcases List.mem_append.1 hs with hs | hs
      · exact hp.undeclared hx s hs
      · exact hp.undeclared hnext s hs

theorem Joinable.sameRuns (hp : p.WellShaped) (h : p.Joinable b t) (s : σ) :
    SameRuns (p.machine m judge) ((p.join b t).machine m judge) Prod.snd Prod.snd (some 0, s) (some 0, s) := by
  -- The absorbed block is never between two blocks of the joined function.
  refine sameRuns_of_steps (P := fun c => (Flow.of p).isReachable c = true ∧ c ≠ t) (fun c ⟨hr, hct⟩ s => ?_)
    (fun c hc => ?_) s
  · have hp' := machine_next_some p m judge c s
    have hq := machine_next_some (p.join b t) m judge c s
    by_cases hcb : c = b
    · subst hcb
      rw [(h.at_source hp).1, (h.at_source hp).2, List.map_append, m.runAll_append,
        Jump.follow_append] at hq
      rw [h.jump] at hp'
      have ht := machine_next_some p m judge t (m.runAll (p.body c) s)
      refine ⟨_, _, _, 2, 1, by omega, by omega, (Steps.one hp').trans (.one ht), .one hq, fun x hx => ?_⟩
      have hx' := Jump.follow_target hx
      exact ⟨hp.isReachable_target (h.reachable_next hp) hx',
        h.ne_of_target (h.reachable_next hp) h.ne hx'⟩
    · rw [(h.elsewhere hp hcb hct).1, (h.elsewhere hp hcb hct).2] at hq
      refine ⟨_, _, _, 1, 1, Nat.one_pos, Nat.one_pos, .one hp', .one hq, fun x hx => ?_⟩
      have hx' := Jump.follow_target hx
      exact ⟨hp.isReachable_target hr hx', h.ne_of_target hr hcb hx'⟩
  · cases hc
    exact ⟨hp.isReachable_zero, Ne.symm h.ne_zero⟩

end Join

theorem getElem?_filter {α : Type} {P : α → Bool} {l : List α} {j : Nat} {x : α} :
    (l.filter P)[j]? = some x ↔ ∃ i, l[i]? = some x ∧ P x = true ∧ (l.take i).countP P = j := by
  induction l generalizing j with
  | nil => simp
  | cons y l ih =>
    by_cases hy : P y = true
    · cases j with
      | zero =>
        rw [List.filter_cons_of_pos hy]
        constructor
        · intro h
          cases h
          exact ⟨0, rfl, hy, rfl⟩
        · rintro ⟨i, hi, -, hc⟩
          cases i with
          | zero => simpa using hi
          | succ i => simp [List.take_succ_cons, hy] at hc
      | succ j =>
        rw [List.filter_cons_of_pos hy, List.getElem?_cons_succ, ih]
        constructor
        · rintro ⟨i, hi, hx, hc⟩
          exact ⟨i + 1, hi, hx, by simp [List.take_succ_cons, hy, hc]⟩
        · rintro ⟨i, hi, hx, hc⟩
          cases i with
          | zero => simp at hc
          | succ i => exact ⟨i, hi, hx, by simpa [List.take_succ_cons, hy] using hc⟩
    · rw [List.filter_cons_of_neg hy, ih]
      constructor
      · rintro ⟨i, hi, hx, hc⟩
        exact ⟨i + 1, hi, hx, by simp [List.take_succ_cons, hy, hc]⟩
      · rintro ⟨i, hi, hx, hc⟩
        cases i with
        | zero =>
          cases hi
          exact absurd hx hy
        | succ i => exact ⟨i, hi, hx, by simpa [List.take_succ_cons, hy] using hc⟩

theorem WellShaped.countP_take (hp : p.WellShaped) (f : Flow) {b : BlockId} (hb : b ≤ p.blocks.length) :
    (p.blocks.take b).countP (f.isReachable ·.id) = compactId f b := by
  have : (p.blocks.take b).map (·.id) = List.range b := by
    refine List.ext_getElem (by simp [hb]) fun i hi hi' => ?_
    have hi : i < p.blocks.length := by simp at hi; omega
    have := hp.numbered (List.getElem?_eq_getElem hi)
    simpa using this
  rw [compactId, ← this, List.countP_map]
  rfl

section Compact

variable (hp : p.WellShaped) (f : Flow)
include hp

theorem WellShaped.getElem?_compact {j : Nat} {c : Block} :
    ((p.blocks.filter (f.isReachable ·.id)).map (compactBlock f))[j]? = some c ↔
      ∃ (i : Nat) (b : Block), p.blocks[i]? = some b ∧ f.isReachable i = true ∧ compactId f i = j ∧
        compactBlock f b = c := by
  rw [List.getElem?_map, Option.map_eq_some_iff]
  simp only [getElem?_filter]
  constructor
  · rintro ⟨b, ⟨i, hi, hb, hj⟩, rfl⟩
    rw [hp.numbered hi] at hb
    have hlt := (List.getElem?_eq_some_iff.1 hi).1
    exact ⟨i, b, hi, hb, (hp.countP_take f (Nat.le_of_lt hlt)).symm.trans hj, rfl⟩
  · rintro ⟨i, b, hi, hr, rfl, rfl⟩
    have hlt := (List.getElem?_eq_some_iff.1 hi).1
    exact ⟨b, ⟨i, hi, by rw [hp.numbered hi]; exact hr, hp.countP_take f (Nat.le_of_lt hlt)⟩, rfl⟩

end Compact

def compacted (p : Proto) : Proto :=
  { p with blocks := (p.blocks.filter ((Flow.of p).isReachable ·.id)).map (compactBlock (Flow.of p)) }

theorem compact_cases (p : Proto) : p.compact.1 = p ∨ p.compact.1 = p.compacted := by
  unfold compact
  simp only
  split
  · exact .inl rfl
  · exact .inr rfl

section Compact

variable (hp : p.WellShaped)
include hp

theorem WellShaped.at_compactId {b : BlockId} (hb : (Flow.of p).isReachable b = true) :
    p.compacted.body (compactId (Flow.of p) b) = p.body b ∧
      p.compacted.jump (compactId (Flow.of p) b) = (p.jump b).map (compactId (Flow.of p)) := by
  have hlt := hp.lt_of_isReachable hb
  have hi : p.blocks[b]? = some p.blocks[b] := List.getElem?_eq_getElem hlt
  have hc := (hp.getElem?_compact (Flow.of p)).2 ⟨b, _, hi, hb, rfl, rfl⟩
  have hj : p.jump b = p.blocks[b].jump := by simp [jump, hi]
  constructor
  · simp only [body, compacted, hc, hi, Option.map_some, Option.getD_some, compactBlock]
  · have ht : ∀ t ∈ (p.blocks[b]).jump.targets, (Flow.of p).isReachable t = true := by
      intro t ht
      exact hp.isReachable_target hb (hj ▸ ht)
    rw [hj]
    simp only [jump, compacted, hc, Option.map_some, Option.getD_some, compactBlock]
    cases hc : p.blocks[b].jump <;> simp_all [Jump.map, Jump.targets]

theorem WellShaped.compacted : p.compacted.WellShaped := by
  have origin {c : Block} (hc : c ∈ p.compacted.blocks) : ∃ (i : Nat) (b : Block), p.blocks[i]? = some b ∧
      (Flow.of p).isReachable i = true ∧ compactBlock (Flow.of p) b = c := by
    obtain ⟨j, hj⟩ := List.mem_iff_getElem?.1 hc
    obtain ⟨i, b, hi, hr, -, he⟩ := (hp.getElem?_compact _).1 hj
    exact ⟨i, b, hi, hr, he⟩
  have exists_at {t : BlockId} (ht : (Flow.of p).isReachable t = true) :
      compactId (Flow.of p) t < p.compacted.blocks.length := by
    have hi := List.getElem?_eq_getElem (hp.lt_of_isReachable ht)
    have := (hp.getElem?_compact (Flow.of p)).2 ⟨t, _, hi, ht, rfl, rfl⟩
    exact (List.getElem?_eq_some_iff.1 this).1
  refine ⟨?_, fun {j c} hj => ?_, fun {c} hc t ht => ?_, fun {c} hc l r s he hs => ?_, fun {c} hc s hs => ?_⟩
  · exact Nat.zero_lt_of_lt (exists_at hp.isReachable_zero)
  · obtain ⟨i, b, hi, -, rfl, rfl⟩ := (hp.getElem?_compact _).1 hj
    simp [compactBlock, hp.numbered hi]
  · obtain ⟨i, b, hi, hr, rfl⟩ := origin hc
    simp only [compactBlock, Jump.targets_map, List.mem_map] at ht
    obtain ⟨u, hu, rfl⟩ := ht
    have hur : (Flow.of p).isReachable u = true :=
      hp.isReachable_target hr (by simpa [jump, hi] using hu)
    rw [if_pos hur]
    exact exists_at hur
  · obtain ⟨i, b, hi, -, rfl⟩ := origin hc
    refine (hp.returns (List.mem_of_getElem? hi) he hs).imp_right fun ht => ?_
    simp [compactBlock, Jump.targets_map, ht]
  · obtain ⟨i, b, hi, -, rfl⟩ := origin hc
    exact hp.undeclared (List.mem_of_getElem? hi) s hs

theorem compacted_sameRuns (s : σ) :
    SameRuns (p.machine m judge) (p.compacted.machine m judge) Prod.snd Prod.snd (some 0, s) (some 0, s) := by
  let R : WalkConfig σ → WalkConfig σ → Prop := fun c d =>
    d = (c.1.map (compactId (Flow.of p)), c.2) ∧ ∀ x, c.1 = some x → (Flow.of p).isReachable x = true
  refine SameRuns.of_matches (R := R) ?_ ⟨rfl, fun x hx => ?_⟩
  · rintro ⟨c | c, s⟩ - ⟨rfl, hc⟩
    · exact ⟨[], _, _, 0, 0, .refl _, .refl _, .inl ⟨rfl, rfl, rfl⟩⟩
    · have hr := hc c rfl
      have hp' := machine_next_some p m judge c s
      have hq := machine_next_some p.compacted m judge
        (compactId (Flow.of p) c) s
      rw [(hp.at_compactId hr).1, (hp.at_compactId hr).2, Jump.follow_map] at hq
      refine ⟨_, _, _, 1, 1, .one hp', .one hq, .inr ⟨by omega, by omega, rfl, fun x hx => ?_⟩⟩
      exact hp.isReachable_target hr (Jump.follow_target hx)
  · cases hx
    exact hp.isReachable_zero

end Compact

theorem WellShaped.joinFirst (hp : p.WellShaped) : p.joinFirst.1.WellShaped := by
  rcases joinFirst_cases p with h | ⟨b, t, hb, ht, h⟩ <;> rw [h]
  · exact hp
  · exact hp.join (hp.joinable hb ht)

theorem joinFirst_sameRuns (hp : p.WellShaped) (s : σ) :
    SameRuns (p.machine m judge) (p.joinFirst.1.machine m judge) Prod.snd Prod.snd (some 0, s) (some 0, s) := by
  rcases joinFirst_cases p with h | ⟨b, t, hb, ht, h⟩ <;> rw [h]
  · exact .refl _ _ _
  · exact (hp.joinable hb ht).sameRuns hp s

theorem WellShaped.simplifyStep (hp : p.WellShaped) : p.simplifyStep.1.WellShaped :=
  hp.decideTests.threadJumps.joinFirst

theorem simplifyStep_sameRuns (hj : judge.Plain) (hp : p.WellShaped) (s : σ) :
    SameRuns (p.machine m judge) (p.simplifyStep.1.machine m judge) Prod.snd Prod.snd
      (some 0, s) (some 0, s) := by
  have hd := @threadJumps_sameRuns _ m judge p.decideTests.1 (some 0, s)
  rw [decideTests_machine hj] at hd
  exact hd.trans (joinFirst_sameRuns hp.decideTests.threadJumps s)

theorem simplifyLoop_induct {P : Proto → Prop} (h : ∀ p, P p → P p.simplifyStep.1) (n : Nat) {p : Proto}
    (hp : P p) : P (simplifyLoop n p).1 := by
  induction n generalizing p with
  | zero => exact hp
  | succ n ih =>
    unfold simplifyLoop
    simp only
    split
    · exact hp
    · exact ih (h p hp)

theorem WellShaped.simplify (hp : p.WellShaped) : p.simplify.1.WellShaped := by
  have hq := simplifyLoop_induct (P := WellShaped) (fun _ h => h.simplifyStep) (2 * p.weight + 2) hp
  unfold Proto.simplify
  rcases compact_cases (simplifyLoop (2 * p.weight + 2) p).1 with h | h <;> simp only [h]
  · exact hq
  · exact hq.compacted

/-- Simplification keeps the executed statements, the tests of anything but constants with their
outcomes, and the state at the end; a function that runs forever still does. -/
theorem simplify_sameRuns (hp : p.violation? = none) (m : Meaning σ) (s : σ) :
    SameRuns (p.machine m m.whole) (p.simplify.1.machine m m.whole) Prod.snd Prod.snd
      (some 0, s) (some 0, s) := by
  have hq := simplifyLoop_induct
    (P := fun q => q.WellShaped ∧ SameRuns (p.machine m m.whole) (q.machine m m.whole) Prod.snd Prod.snd
      (some 0, s) (some 0, s))
    (fun q h => ⟨h.1.simplifyStep, h.2.trans (simplifyStep_sameRuns m.whole_plain h.1 s)⟩)
    (2 * p.weight + 2) ⟨wellShaped_of_violation hp, .refl _ _ _⟩
  unfold simplify
  rcases compact_cases (simplifyLoop (2 * p.weight + 2) p).1 with h | h <;> simp only [h]
  · exact hq.2
  · exact hq.2.trans (compacted_sameRuns hq.1 s)

def detour : Proto :=
  { id := 0
    blocks := [
      ⟨0, 0, 0, [.call (.global "f") [] 0], .branch (.boolean true) 1 2⟩,
      ⟨1, 0, 0, [], .always 3⟩,
      ⟨2, 0, 0, [.call (.global "g") [] 0], .leave⟩,
      ⟨3, 0, 0, [.call (.global "h") [] 0], .branch (.global "c") 3 4⟩,
      ⟨4, 0, 0, [.ret [] 0], .leave⟩] }

theorem simplify_sameRuns_detour : detour.violation? = none ∧
    SameRuns (detour.machine .counting Meaning.counting.whole)
      (detour.simplify.1.machine .counting Meaning.counting.whole) Prod.snd Prod.snd
      (some 0, 0) (some 0, 0) :=
  ⟨by cbv, simplify_sameRuns (by cbv) .counting 0⟩

end Proto

end LuaLift
