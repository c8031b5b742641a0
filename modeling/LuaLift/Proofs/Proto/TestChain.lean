import LuaLift.Proofs.Meaning
import LuaLift.Proofs.Proto.Shape
import LuaLift.Lift

namespace LuaLift

open Machine Relation

variable {σ : Type} {m : Meaning σ} {judge : Judge σ}

namespace Test

variable {a b t : Test}

theorem conjoin?_eq_some (h : a.conjoin? b = some t) :
    b.onFalse = a.onFalse ∧ t = ⟨.binary .and a.condition b.condition, b.onTrue, a.onFalse⟩ ∨
      b.onTrue = a.onFalse ∧ t = ⟨.binary .and a.condition b.condition.negate, b.onFalse, a.onFalse⟩ := by
  unfold conjoin? at h
  split at h
  · next he => exact .inl ⟨he, (Option.some.inj h).symm⟩
  · split at h
    · next he => exact .inr ⟨he, (Option.some.inj h).symm⟩
    · cases h

theorem disjoin?_eq_some (h : a.disjoin? b = some t) :
    b.onTrue = a.onTrue ∧ t = ⟨.binary .or a.condition b.condition, a.onTrue, b.onFalse⟩ ∨
      b.onFalse = a.onTrue ∧ t = ⟨.binary .or a.condition b.condition.negate, a.onTrue, b.onTrue⟩ := by
  unfold disjoin? at h
  split at h
  · next he => exact .inl ⟨he, (Option.some.inj h).symm⟩
  · split at h
    · next he => exact .inr ⟨he, (Option.some.inj h).symm⟩
    · cases h

theorem follow_conjoin (h : a.conjoin? b = some t) (es : List Event) (s : σ) :
    t.jump.follow m.decide es s = if (m.decide a.condition s).holds then
      b.jump.follow m.decide (es ++ (m.decide a.condition s).events) (m.decide a.condition s).state
    else a.jump.follow m.decide es s := by
  obtain ⟨he, rfl⟩ | ⟨he, rfl⟩ := conjoin?_eq_some h
  · cases ha : (m.decide a.condition s).holds
    · simp [jump, Jump.follow, Meaning.decide, ha]
    · simp [jump, Jump.follow, Meaning.decide, ha, Verdict.behind, he]
  · cases ha : (m.decide a.condition s).holds
    · simp [jump, Jump.follow, Meaning.decide, ha]
    · simp only [jump, Jump.follow, Meaning.decide, ha, Verdict.behind, m.decide_negate, if_true, he,
        Verdict.negated_events, Verdict.negated_holds, Verdict.negated_state, List.append_assoc]
      cases (m.decide b.condition (m.decide a.condition s).state).holds <;> rfl

theorem follow_disjoin (h : a.disjoin? b = some t) (es : List Event) (s : σ) :
    t.jump.follow m.decide es s = if (m.decide a.condition s).holds then a.jump.follow m.decide es s
    else b.jump.follow m.decide (es ++ (m.decide a.condition s).events) (m.decide a.condition s).state := by
  obtain ⟨he, rfl⟩ | ⟨he, rfl⟩ := disjoin?_eq_some h
  · cases ha : (m.decide a.condition s).holds
    · simp [jump, Jump.follow, Meaning.decide, ha, Verdict.behind, he]
    · simp [jump, Jump.follow, Meaning.decide, ha]
  · cases ha : (m.decide a.condition s).holds
    · simp only [jump, Jump.follow, Meaning.decide, ha, Verdict.behind, m.decide_negate, he,
        Verdict.negated_events, Verdict.negated_holds, Verdict.negated_state, List.append_assoc,
        Bool.false_eq_true, if_false]
      cases (m.decide b.condition (m.decide a.condition s).state).holds <;> rfl
    · simp [jump, Jump.follow, Meaning.decide, ha]

theorem mem_targets_iff (h : a.conjoin? b = some t ∨ a.disjoin? b = some t) {u : BlockId} :
    u ∈ t.jump.targets ↔ u ∈ b.jump.targets := by
  simp only [jump, Jump.targets, List.mem_cons, List.not_mem_nil, or_false]
  rcases h with h | h
  · obtain ⟨he, rfl⟩ | ⟨he, rfl⟩ := conjoin?_eq_some h
    · rw [he]
    · rw [he, or_comm]
  · obtain ⟨he, rfl⟩ | ⟨he, rfl⟩ := disjoin?_eq_some h
    · rw [he]
    · rw [he, or_comm]

end Test

namespace Proto

/-- Every reachable block that leaves the function ends with a return. -/
def Returning (p : Proto) : Prop :=
  (Flow.of p).order.all fun b => !(p.jump b).targets.isEmpty || (p.body b).getLast?.any Stmt.isReturn

variable {p : Proto}

theorem returning_iff : p.Returning ↔ ∀ b, (Flow.of p).isReachable b = true →
    (p.jump b).targets = [] → (p.body b).getLast?.any Stmt.isReturn = true := by
  simp only [Returning, List.all_eq_true, Flow.mem_order, Bool.or_eq_true, Bool.not_eq_true',
    List.isEmpty_eq_false_iff]
  exact forall₂_congr fun b _ => Decidable.imp_iff_not_or.symm

theorem WellShaped.update (hp : p.WellShaped) {q : Proto} (hlen : q.blocks.length = p.blocks.length)
    (hq : ∀ {i : Nat} {c : Block}, q.blocks[i]? = some c → ∃ b, p.blocks[i]? = some b ∧ c.id = b.id ∧
      (c.body = b.body ∨ c.body = []) ∧ (∀ t ∈ c.jump.targets, t < p.blocks.length) ∧
      (b.jump.targets = [] → c.jump.targets = [])) : q.WellShaped := by
  have at_index {c : Block} (hc : c ∈ q.blocks) : ∃ i : Nat, q.blocks[i]? = some c :=
    List.mem_iff_getElem?.1 hc
  refine ⟨hlen ▸ hp.nonempty, fun {i c} hi => ?_, fun {c} hc t ht => ?_, fun {c} hc l r s he hs => ?_,
    fun {c} hc s hs => ?_⟩
  · obtain ⟨b, hb, hid, -⟩ := hq hi
    rw [hid, hp.numbered hb]
  · obtain ⟨i, hi⟩ := at_index hc
    obtain ⟨b, -, -, -, hin, -⟩ := hq hi
    rw [hlen]
    exact hin t ht
  · obtain ⟨i, hi⟩ := at_index hc
    obtain ⟨b, hb, -, hbody | hbody, -, hempty⟩ := hq hi
    · rw [hbody] at he
      exact (hp.returns (List.mem_of_getElem? hb) he hs).imp_right hempty
    · simp [hbody] at he
  · obtain ⟨i, hi⟩ := at_index hc
    obtain ⟨b, hb, -, hbody | hbody, -⟩ := hq hi
    · exact hp.undeclared (List.mem_of_getElem? hb) s (hbody ▸ hs)
    · simp [hbody] at hs

theorem exists_last_return {l : List Stmt} (h : l.getLast?.any Stmt.isReturn = true) :
    ∃ l' s, l = l' ++ [s] ∧ s.isReturn = true := by
  obtain ⟨s, hs, hret⟩ := (Option.any_eq_true _ _).1 h
  obtain ⟨l', hl'⟩ := List.getLast?_eq_some_iff.1 hs
  exact ⟨l', s, hl', hret⟩

theorem Returning.ends (h : p.Returning) {b : BlockId}
    (hb : (Flow.of p).isReachable b = true) (hj : p.jump b = .leave) :
    ∃ l s, p.body b = l ++ [s] ∧ s.isReturn = true :=
  exists_last_return (returning_iff.1 h b hb (by rw [hj]; rfl))

theorem Jump.of_test {j : Jump} {t : Test} (h : j.test? = some t) : j = t.jump := by
  cases j with
  | branch c a b => cases h; rfl
  | always => cases h
  | leave => cases h

theorem innerTest?_eq_some {f : Flow} {head inner : BlockId} {t : Test}
    (h : p.innerTest? f head inner = some t) : inner ≠ head ∧ p.body inner = [] ∧ p.jump inner = t.jump := by
  unfold innerTest? at h
  split at h
  · cases h
  · next hne =>
    split at h
    · next u hb hj =>
      split at h
      · cases h
      · cases h
        exact ⟨fun he => hne (.inl he), hb, Jump.of_test hj⟩
    · cases h

structure Chain (p : Proto) (head inner : BlockId) (a b t : Test) : Prop where
  atHead : p.jump head = a.jump
  empty : p.body inner = []
  atInner : p.jump inner = b.jump
  ne : inner ≠ head
  joins : a.onTrue = inner ∧ a.conjoin? b = some t ∨ a.onFalse = inner ∧ a.disjoin? b = some t

theorem foldAt?_cases {f : Flow} {head : BlockId} {t : Test} (h : p.foldAt? f head = some t) :
    ∃ (inner : BlockId) (a b : Test), p.jump head = a.jump ∧ a.onTrue ≠ a.onFalse ∧
      p.innerTest? f head inner = some b ∧
      (a.onTrue = inner ∧ a.conjoin? b = some t ∨ a.onFalse = inner ∧ a.disjoin? b = some t) := by
  unfold foldAt? at h
  cases ha : (p.jump head).test? with
  | none =>
    rw [ha] at h
    cases h
  | some a =>
    rw [ha] at h
    change Option.bind (guard (a.onTrue ≠ a.onFalse)) _ = some t at h
    by_cases hne : a.onTrue = a.onFalse
    · rw [show (guard (a.onTrue ≠ a.onFalse) : Option Unit) = none from if_neg fun h => h hne] at h
      cases h
    · rw [show (guard (a.onTrue ≠ a.onFalse) : Option Unit) = some () from if_pos hne] at h
      simp only [Option.bind_some, Option.orElse_eq_orElse, Option.orElse_eq_or, Option.or_eq_some_iff,
        Option.bind_eq_some_iff] at h
      obtain ⟨b, hb, ht⟩ | ⟨-, b, hb, ht⟩ := h
      · exact ⟨_, a, b, Jump.of_test ha, hne, hb, .inl ⟨rfl, ht⟩⟩
      · exact ⟨_, a, b, Jump.of_test ha, hne, hb, .inr ⟨rfl, ht⟩⟩

theorem foldAt?_eq_some {f : Flow} {head : BlockId} {t : Test} (h : p.foldAt? f head = some t) :
    ∃ inner a b, p.Chain head inner a b t := by
  obtain ⟨inner, a, b, ha, -, hb, hjoins⟩ := foldAt?_cases h
  obtain ⟨hi, he, hj⟩ := innerTest?_eq_some hb
  exact ⟨inner, a, b, ha, he, hj, hi, hjoins⟩

def withJump (p : Proto) (b : BlockId) (j : Jump) : Proto := p.modify b fun c => { c with jump := j }

theorem foldFirst?_eq_some {q : Proto} (h : p.foldFirst? = some q) : ∃ head t,
    (Flow.of p).isReachable head = true ∧ p.foldAt? (.of p) head = some t ∧
      q = p.withJump head t.jump := by
  unfold foldFirst? at h
  obtain ⟨⟨b, t⟩, hb, rfl⟩ := Option.map_eq_some_iff.1 h
  obtain ⟨c, hc, hfold⟩ := List.exists_of_findSome?_eq_some hb
  obtain ⟨u, hu, he⟩ := Option.map_eq_some_iff.1 hfold
  cases he
  exact ⟨b, t, Flow.mem_order.1 hc, hu, rfl⟩

theorem body_withJump (b c : BlockId) (j : Jump) : (p.withJump b j).body c = p.body c := by
  simp only [body, withJump, modify, List.getElem?_modify]
  cases p.blocks[c]? with
  | none => simp
  | some x => by_cases h : b = c <;> simp [h]

theorem jump_withJump {b : BlockId} (hb : b < p.blocks.length) (c : BlockId) (j : Jump) :
    (p.withJump b j).jump c = if c = b then j else p.jump c := by
  simp only [jump, withJump, modify, List.getElem?_modify]
  by_cases h : c = b
  · subst h
    simp [hb]
  · simp [h, Ne.symm h]

namespace Chain

variable {head inner : BlockId} {a b t : Test} (h : p.Chain head inner a b t)
include h

theorem head_lt : head < p.blocks.length := by
  refine Nat.lt_of_not_le fun hle => ?_
  have := h.atHead
  simp [jump, List.getElem?_eq_none hle, Test.jump] at this

theorem inner_mem : inner ∈ (p.jump head).targets := by
  rw [h.atHead]
  rcases h.joins with ⟨rfl, -⟩ | ⟨rfl, -⟩ <;> simp [Test.jump, Jump.targets]

theorem mem_targets_iff {u : BlockId} : u ∈ t.jump.targets ↔ u ∈ (p.jump inner).targets := by
  rw [h.atInner]
  exact Test.mem_targets_iff (h.joins.imp And.right And.right)

theorem wellShaped (hp : p.WellShaped) : (p.withJump head t.jump).WellShaped := by
  refine hp.update (by simp [withJump, modify]) fun {i c} hi => ?_
  simp only [withJump, modify, List.getElem?_modify, Option.map_eq_map, Option.map_eq_some_iff] at hi
  obtain ⟨x, hx, rfl⟩ := hi
  refine ⟨x, hx, ?_⟩
  by_cases hih : head = i
  · subst hih
    rw [if_pos rfl]
    refine ⟨rfl, .inl rfl, fun u hu => ?_, fun hnil => ?_⟩
    · exact hp.targets_lt (h.mem_targets_iff.1 hu)
    · have := h.atHead
      simp only [jump, hx, Option.map_some, Option.getD_some] at this
      simp [this, Test.jump, Jump.targets] at hnil
  · rw [if_neg hih]
    exact ⟨rfl, .inl rfl, hp.inside (List.mem_of_getElem? hx), fun hnil => hnil⟩

theorem follow_steps (s : σ) : ∃ es c n, 0 < n ∧ (p.machine m m.decide).Steps (some head, s) es c n ∧
    t.jump.follow m.decide ((p.body head).map .stmt) (m.runAll (p.body head) s) = (es, c) := by
  have hhead := machine_next_some p m m.decide head s
  rw [h.atHead] at hhead
  have hinner (s : σ) := machine_next_some p m m.decide inner s
  simp only [h.empty, h.atInner, List.map_nil, m.runAll_nil] at hinner
  generalize (p.body head).map Event.stmt = es at hhead ⊢
  generalize m.runAll (p.body head) s = s' at hhead ⊢
  have both {es' : List Event} {s'' : σ} (hn : (p.machine m m.decide).next (some head, s) =
      some (es', some inner, s'')) : ∃ es c n, 0 < n ∧ (p.machine m m.decide).Steps (some head, s) es c n ∧
      b.jump.follow m.decide es' s'' = (es, c) := by
    exact ⟨_, _, _, by omega, (Steps.one hn).trans (.one (hinner s'')), rfl⟩
  rcases h.joins with ⟨hi, hj⟩ | ⟨hi, hj⟩
  · rw [Test.follow_conjoin hj]
    cases ha : (m.decide a.condition s').holds
    · exact ⟨_, _, 1, by omega, .one hhead, rfl⟩
    · refine both ?_
      rw [hhead]
      simp [Test.jump, Jump.follow, ha, hi]
  · rw [Test.follow_disjoin hj]
    cases ha : (m.decide a.condition s').holds
    · refine both ?_
      rw [hhead]
      simp [Test.jump, Jump.follow, ha, hi]
    · exact ⟨_, _, 1, by omega, .one hhead, rfl⟩

theorem sameRuns (c : WalkConfig σ) : SameRuns (p.machine m m.decide)
    ((p.withJump head t.jump).machine m m.decide) Prod.snd Prod.snd c c := by
  refine sameRuns_of_steps (P := fun _ => True) (fun b _ s => ?_) (fun _ _ => trivial) c.2
  have hq := machine_next_some (p.withJump head t.jump) m m.decide b s
  rw [body_withJump, jump_withJump h.head_lt] at hq
  by_cases hb : b = head
  · subst hb
    obtain ⟨es, d, n, hn, hsteps, he⟩ := h.follow_steps (m := m) s
    rw [if_pos rfl, he] at hq
    exact ⟨es, d.1, d.2, n, 1, hn, Nat.one_pos, hsteps, .one hq, fun _ _ => trivial⟩
  · rw [if_neg hb] at hq
    exact ⟨_, _, _, 1, 1, Nat.one_pos, Nat.one_pos, .one (machine_next_some p m _ b s), .one hq, fun _ _ => trivial⟩

theorem isReachable (hp : p.WellShaped) {c : BlockId}
    (hc : (Flow.of (p.withJump head t.jump)).isReachable c = true) : (Flow.of p).isReachable c = true := by
  induction hc using (h.wellShaped hp).reachable_induction with
  | zero => exact hp.isReachable_zero
  | target x y _ hy ih =>
    rw [jump_withJump h.head_lt] at hy
    by_cases hx : x = head
    · rw [if_pos hx] at hy
      rw [hx] at ih
      exact hp.isReachable_target (hp.isReachable_target ih h.inner_mem) (h.mem_targets_iff.1 hy)
    · rw [if_neg hx] at hy
      exact hp.isReachable_target ih hy

theorem returning (hp : p.WellShaped) (hr : p.Returning) : (p.withJump head t.jump).Returning := by
  refine returning_iff.2 fun c hc hnil => ?_
  rw [jump_withJump h.head_lt] at hnil
  by_cases hch : c = head
  · simp [hch, Test.jump, Jump.targets] at hnil
  · rw [if_neg hch] at hnil
    rw [body_withJump]
    exact returning_iff.1 hr c (h.isReachable hp hc) hnil

end Chain

structure Folds (m : Meaning σ) (p q : Proto) : Prop where
  wellShaped : q.WellShaped
  returning : p.Returning → q.Returning
  sameRuns : ∀ s, SameRuns (p.machine m m.decide) (q.machine m m.decide) Prod.snd Prod.snd
    (some 0, s) (some 0, s)

theorem Folds.refl (hp : p.WellShaped) : Folds m p p := ⟨hp, fun h => h, fun _ => .refl _ _ _⟩

theorem Folds.trans {q r : Proto} (h : Folds m p q) (h' : Folds m q r) : Folds m p r :=
  ⟨h'.wellShaped, fun hr => h'.returning (h.returning hr), fun s => (h.sameRuns s).trans (h'.sameRuns s)⟩

theorem foldFirst?_folds (hp : p.WellShaped) {q : Proto} (h : p.foldFirst? = some q) : Folds m p q := by
  obtain ⟨head, t, -, ht, rfl⟩ := foldFirst?_eq_some h
  obtain ⟨inner, a, b, hchain⟩ := foldAt?_eq_some ht
  exact ⟨hchain.wellShaped hp, hchain.returning hp, fun s => hchain.sameRuns _⟩

theorem foldLoop_folds (n : Nat) (hp : p.WellShaped) : Folds m p (foldLoop n p).1 := by
  induction n generalizing p with
  | zero => exact .refl hp
  | succ n ih =>
    unfold foldLoop
    split
    · exact .refl hp
    · next q hq =>
      have hfold := foldFirst?_folds (m := m) hp hq
      exact hfold.trans (ih hfold.wellShaped)

theorem getElem?_clearUnreachable (i : Nat) : p.clearUnreachable.blocks[i]? =
    p.blocks[i]?.map fun b => if (Flow.of p).isReachable b.id then b else { b with body := [], jump := .leave } :=
  List.getElem?_map ..

theorem WellShaped.getElem?_of_isReachable (hp : p.WellShaped) {b : BlockId}
    (hb : (Flow.of p).isReachable b = true) : p.clearUnreachable.blocks[b]? = p.blocks[b]? := by
  have hi := List.getElem?_eq_getElem (hp.lt_of_isReachable hb)
  simp [getElem?_clearUnreachable, hi, hp.numbered hi, hb]

theorem WellShaped.at_clearUnreachable (hp : p.WellShaped) {b : BlockId}
    (hb : (Flow.of p).isReachable b = true) :
    p.clearUnreachable.body b = p.body b ∧ p.clearUnreachable.jump b = p.jump b := by
  simp [body, jump, hp.getElem?_of_isReachable hb]

theorem WellShaped.clearUnreachable (hp : p.WellShaped) : p.clearUnreachable.WellShaped := by
  refine hp.update (by simp [Proto.clearUnreachable]) fun {i c} hi => ?_
  rw [getElem?_clearUnreachable, Option.map_eq_some_iff] at hi
  obtain ⟨b, hb, rfl⟩ := hi
  refine ⟨b, hb, ?_⟩
  split
  · exact ⟨rfl, .inl rfl, hp.inside (List.mem_of_getElem? hb), fun hnil => hnil⟩
  · exact ⟨rfl, .inr rfl, by simp [Jump.targets], fun _ => rfl⟩

theorem WellShaped.isReachable_clearUnreachable (hp : p.WellShaped) {b : BlockId} :
    (Flow.of p.clearUnreachable).isReachable b = true ↔ (Flow.of p).isReachable b = true := by
  constructor
  · intro hb
    induction hb using hp.clearUnreachable.reachable_induction with
    | zero => exact hp.isReachable_zero
    | target x y _ hy ih =>
      rw [(hp.at_clearUnreachable ih).2] at hy
      exact hp.isReachable_target ih hy
  · intro hb
    induction hb using hp.reachable_induction with
    | zero => exact hp.clearUnreachable.isReachable_zero
    | target x y hx hy ih =>
      rw [← (hp.at_clearUnreachable hx).2] at hy
      exact hp.clearUnreachable.isReachable_target ih hy

theorem clearUnreachable_folds (hp : p.WellShaped) : Folds m p p.clearUnreachable := by
  refine ⟨hp.clearUnreachable, fun hr => returning_iff.2 fun b hb hnil => ?_, fun s => ?_⟩
  · have hb' := hp.isReachable_clearUnreachable.1 hb
    rw [(hp.at_clearUnreachable hb').2] at hnil
    rw [(hp.at_clearUnreachable hb').1]
    exact returning_iff.1 hr b hb' hnil
  · refine sameRuns_of_steps (P := fun b => (Flow.of p).isReachable b = true) (fun b hb s => ?_) (fun b hb => ?_) s
    · have hq := machine_next_some p.clearUnreachable m m.decide b s
      rw [(hp.at_clearUnreachable hb).1, (hp.at_clearUnreachable hb).2] at hq
      exact ⟨_, _, _, 1, 1, Nat.one_pos, Nat.one_pos, .one (machine_next_some p m _ b s), .one hq,
        fun x hx => hp.isReachable_target hb (Jump.follow_target hx)⟩
    · cases hb
      exact hp.isReachable_zero

theorem foldedTests_folds (hp : p.WellShaped) : Folds m p p.foldedTests := by
  have hfold : Folds m p p.foldTests.1 := foldLoop_folds p.blocks.length hp
  unfold foldedTests
  simp only
  split
  · exact hfold
  · exact hfold.trans (clearUnreachable_folds hfold.wellShaped)

end Proto

end LuaLift
