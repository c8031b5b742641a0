import LuaLift.Proofs.Proto.Points
import LuaLift.Proofs.Slots.Reaching
import LuaLift.Slots.Webs

namespace LuaLift.Definitions

variable {p : Proto} {r : Reaching} {b : BlockId} {i : Nat} {x : Slot}

theorem states_succ (ds : Definitions) (r : Reaching) {s : Stmt} (hs : (p.body b)[i]? = some s) : ∃ before,
    (ds.states p r b)[i]? = some before ∧ (ds.states p r b)[i + 1]? = some (ds.transfer b i s before) := by
  have hsucc := @alongFrom_succ ds b 0 (r.atEntry b) _ _ _ hs
  rw [Nat.zero_add] at hsucc
  exact hsucc

def Reached (ds : Definitions) (p : Proto) (r : Reaching) (x : Slot) (q : Point) : Prop :=
  ∃ state d, (ds.states p r q.1)[q.2]? = some state ∧ d ∈ state ∧ ds.slot? d = some x

structure Spreads (p : Proto) (P : Nat → Point → Prop) : Prop where
  parameter : ∀ d < p.parameters, P d (0, 0)
  stmt : ∀ {b : BlockId} {i : Nat} {s : Stmt} {state : NatSet} {d : Nat}, (Flow.of p).isReachable b = true →
    (p.body b)[i]? = some s → (∀ e ∈ state, P e (b, i)) → d ∈ (of p (.of p)).transfer b i s state → P d (b, i + 1)
  jump : ∀ {b c : BlockId} {d : Nat}, (Flow.of p).isReachable b = true → c ∈ (p.jump b).targets →
    P d (b, (p.body b).length) → P d (c, 0)

namespace Spreads

variable {P : Nat → Point → Prop} (hP : Spreads p P) (hb : (Flow.of p).isReachable b = true)
include hP hb

theorem alongFrom {entry : NatSet} (hentry : ∀ d ∈ entry, P d (b, 0)) {state : NatSet}
    (hstate : ((of p (.of p)).alongFrom b 0 entry (p.body b))[i]? = some state) : ∀ d ∈ state, P d (b, i) := by
  induction i generalizing state with
  | zero =>
    rw [alongFrom_zero] at hstate
    cases hstate
    exact hentry
  | succ i ih =>
    have hi : i < (p.body b).length := by
      have := (List.getElem?_eq_some_iff.1 hstate).1
      rw [length_alongFrom] at this
      exact Nat.lt_of_succ_lt_succ this
    have hs := List.getElem?_eq_getElem hi
    obtain ⟨before, hbefore, hafter⟩ := @alongFrom_succ (of p (.of p)) b 0 entry _ _ _ hs
    obtain rfl := Option.some.inj (hstate.symm.trans hafter)
    rw [Nat.zero_add]
    intro d hd
    exact hP.stmt hb hs (ih hbefore) hd

variable (hp : p.WellShaped)
include hp

theorem gather {passed : BlockId → NatSet}
    (hpassed : ∀ c, (Flow.of p).isReachable c = true → ∀ d ∈ passed c, P d (c, (p.body c).length)) :
    ∀ d ∈ ((of p (.of p)).equations p (.of p)).gather passed b, P d (b, 0) := by
  intro d hd
  rcases ((of p (.of p)).equations p (.of p)).mem_gather.1 hd with hd | ⟨c, hc, hd⟩
  · have hd : d ∈ if b = 0 then (of p (.of p)).parameters else ∅ := hd
    split at hd
    · next hzero =>
      subst hzero
      exact hP.parameter d (isParameter_iff.1 (List.mem_filter.1 (NatSet.mem_ofList.1 hd)).2)
    · exact absurd hd NatSet.not_mem_empty
  · obtain ⟨hrc, hbc⟩ := hp.mem_predecessors.1 hc
    exact hP.jump hrc hbc (hpassed c hrc d hd)

theorem after {j : Nat} : ∀ d ∈ ((of p (.of p)).equations p (.of p)).after j b, P d (b, (p.body b).length) := by
  induction j generalizing b with
  | zero => exact fun d hd => absurd hd NatSet.not_mem_empty
  | succ j ih => exact hP.alongFrom hb (hP.gather hb hp fun c hc => ih hc) getElem?_alongFrom_length

theorem of_mem_states (hr : ((of p (.of p)).equations p (.of p)).Solves r.atEntry r.atExit) {state : NatSet}
    (hstate : ((of p (.of p)).states p r b)[i]? = some state) : ∀ d ∈ state, P d (b, i) := by
  apply hP.alongFrom hb _ hstate
  rw [hr.gathered b (Flow.mem_order.2 hb)]
  exact hP.gather hb hp fun c hc => hP.after hc hp

end Spreads

variable (hp : p.WellShaped)
include hp

theorem spreads_definedAt : Spreads p fun d q => ∀ x, (of p (.of p)).slot? d = some x → p.DefinedAt x q where
  parameter := by
    intro d hd x hx
    obtain rfl : d = x := Option.some.inj ((slot?_parameter hd).symm.trans hx)
    exact .inl ⟨hd, .refl⟩
  stmt := by
    intro b i s state d hb hs hstate hd x hx
    have hi := (List.getElem?_eq_some_iff.1 hs).1
    rw [Proto.definedAt_succ (hp.flows_entry hb (Nat.le_of_lt hi)) hi]
    rcases mem_transfer (Flow.mem_order.2 hb) hs hd with hd | ⟨n, y, hy, hdy⟩
    · exact .inl (hstate d hd x hx)
    · obtain rfl : y = x := Option.some.inj (hdy.symm.trans hx)
      exact .inr (.stmt hs (mem_writtenSlots.2 ⟨n, hy⟩))
  jump := fun _ hc h x hx => (h x hx).trans (.single (.jump rfl hc))

theorem definedAt_of_reached (hb : (Flow.of p).isReachable b = true)
    (hr : ((of p (.of p)).equations p (.of p)).Solves r.atEntry r.atExit)
    (h : (of p (.of p)).Reached p r x (b, i)) : p.DefinedAt x (b, i) := by
  obtain ⟨state, d, hstate, hd, hx⟩ := h
  exact (spreads_definedAt hp).of_mem_states hb hp hr hstate d hd x hx

section Settled

variable {q t : Point} (h : (of p (.of p)).Settled p (.of p) r)
include h

omit hp in
theorem Settled.atExit (hb : (Flow.of p).isReachable b = true) :
    ((of p (.of p)).states p r b)[(p.body b).length]? = some (r.atExit b) := by
  rw [h.exit b (Flow.mem_order.2 hb)]
  exact getElem?_alongFrom_length

omit hp h in
theorem exists_definition (hb : (Flow.of p).isReachable b = true) {s : Stmt} (hs : (p.body b)[i]? = some s)
    {n : Nat} (hx : (n, x) ∈ s.slotTargets) : ∃ state e m, ((of p (.of p)).states p r b)[i + 1]? = some state ∧
      e ∈ state ∧ (of p (.of p)).slot? e = some x ∧ (m, x) ∈ s.slotTargets ∧
      (of p (.of p)).number? (.target b i m) = some e := by
  obtain ⟨before, -, hafter⟩ := states_succ (of p (.of p)) r hs
  obtain ⟨m, e, hm, hnumber, hex, he⟩ := defined_by_transfer (Flow.mem_order.2 hb) hs hx
  exact ⟨_, e, m, hafter, he, hex, hm, hnumber⟩

theorem Settled.follow (hnext : p.Next q t) (hb : (Flow.of p).isReachable q.1 = true) {state : NatSet} {d : Nat}
    (hstate : ((of p (.of p)).states p r q.1)[q.2]? = some state) (hd : d ∈ state)
    (hx : (of p (.of p)).slot? d = some x) : ∃ state' e, ((of p (.of p)).states p r t.1)[t.2]? = some state' ∧
      e ∈ state' ∧ (of p (.of p)).slot? e = some x ∧ (e = d ∨ ∃ s m, (p.body q.1)[q.2]? = some s ∧
        (m, x) ∈ s.slotTargets ∧ (of p (.of p)).number? (.target q.1 q.2 m) = some e) := by
  cases hnext with
  | @stmt b i hi =>
    have hs := List.getElem?_eq_getElem hi
    by_cases hw : ∃ n, (n, x) ∈ (p.body b)[i].slotTargets
    · obtain ⟨n, hn⟩ := hw
      obtain ⟨state', e, m, hstate', he, hex, hm, hnumber⟩ := exists_definition hb hs hn
      exact ⟨state', e, hstate', he, hex, .inr ⟨_, m, hs, hm, hnumber⟩⟩
    · obtain ⟨before, hbefore, hafter⟩ := states_succ (of p (.of p)) r hs
      obtain rfl : before = state := Option.some.inj (hbefore.symm.trans hstate)
      refine ⟨_, d, hafter, kept_by_transfer (Flow.mem_order.2 hb) hs hd ?_, hx, .inl rfl⟩
      intro n y hy hdy
      obtain rfl : y = x := Option.some.inj (hdy.symm.trans hx)
      exact hw ⟨n, hy⟩
  | @jump b c i hi hc =>
    subst hi
    obtain rfl : r.atExit b = state := Option.some.inj ((h.atExit hb).symm.trans hstate)
    exact ⟨_, d, alongFrom_zero, h.edge hp hb hc hd, hx, .inl rfl⟩

theorem Reached.flows (hq : (of p (.of p)).Reached p r x q) (hentry : p.Flows (0, 0) q) (hpath : p.Flows q t) :
    (of p (.of p)).Reached p r x t := by
  induction hpath with
  | refl => exact hq
  | tail hpath hnext ih =>
    obtain ⟨state, d, hstate, hd, hx⟩ := ih
    obtain ⟨state', e, hstate', he, hex, -⟩ :=
      h.follow hp hnext (hp.isReachable_of_flows (hentry.trans hpath)) hstate hd hx
    exact ⟨state', e, hstate', he, hex⟩

theorem reached_of_definedAt (hq : p.DefinedAt x q) : (of p (.of p)).Reached p r x q := by
  rcases hq with ⟨hx, hq⟩ | ⟨a, t, ha, ⟨hs, hw⟩, hat, hq⟩
  · have hzero : (of p (.of p)).Reached p r x (0, 0) := by
      refine ⟨_, x, alongFrom_zero, h.parameters hp ?_, slot?_parameter hx⟩
      exact NatSet.mem_ofList.2 (List.mem_filter.2
        ⟨List.mem_range.2 (lt_size_of_slot? (slot?_parameter hx)), isParameter_iff.2 hx⟩)
    exact hzero.flows hp h .refl hq
  · obtain ⟨n, hn⟩ := mem_writtenSlots.1 hw
    have hra := hp.isReachable_of_flows ha
    cases hat with
    | stmt hi =>
      obtain ⟨state, e, -, hstate, he, hex, -, -⟩ := exists_definition hra hs hn
      have hreached : (of p (.of p)).Reached p r x (_, _ + 1) := ⟨state, e, hstate, he, hex⟩
      exact hreached.flows hp h (ha.tail (.stmt hi)) hq
    | jump hi hc =>
      have := (List.getElem?_eq_some_iff.1 hs).1
      omega

end Settled

theorem reached_iff (hr : ((of p (.of p)).equations p (.of p)).Solves r.atEntry r.atExit)
    (hb : (Flow.of p).isReachable b = true) : (of p (.of p)).Reached p r x (b, i) ↔ p.DefinedAt x (b, i) :=
  ⟨definedAt_of_reached hp hb hr, reached_of_definedAt hp (settled_of_solves hr)⟩

end LuaLift.Definitions
