import LuaLift.Proofs.Slots.Defined
import LuaLift.Proofs.Slots.Numbering

namespace LuaLift

open Relation

namespace Proto

inductive Defines (p : Proto) : Definition → Prop where
  | parameter {s : Slot} (hs : s < p.parameters) : Defines p ⟨.parameter s, s⟩
  | target {b : BlockId} {i n : Nat} {s : Stmt} {x : Slot} (hb : (Flow.of p).isReachable b = true)
    (hs : (p.body b)[i]? = some s) (hx : (n, x) ∈ s.slotTargets) : Defines p ⟨.target b i n, x⟩

inductive Starts (p : Proto) : Definition → Point → Prop where
  | parameter {s : Slot} (hs : s < p.parameters) : Starts p ⟨.parameter s, s⟩ (0, 0)
  | target {b : BlockId} {i n : Nat} {s : Stmt} {x : Slot} (hb : (Flow.of p).isReachable b = true)
    (hs : (p.body b)[i]? = some s) (hx : (n, x) ∈ s.slotTargets)
    (hlast : ∀ m, (m, x) ∈ s.slotTargets → m ≤ n) : Starts p ⟨.target b i n, x⟩ (b, i + 1)

/-- Some path leads from the definition to the point, and no statement on it writes the slot again. -/
def Arrives (p : Proto) (d : Definition) (q : Point) : Prop :=
  ∃ t, p.Starts d t ∧ ReflTransGen (fun a c => p.Next a c ∧ ¬p.Writes .slot d.slot a) t q

variable {p : Proto} {d : Definition} {q t : Point}

theorem Starts.defines (h : p.Starts d q) : p.Defines d := by
  cases h with
  | parameter hs => exact .parameter hs
  | target hb hs hx => exact .target hb hs hx

theorem Arrives.next (h : p.Arrives d q) (hnext : p.Next q t) (hw : ¬p.Writes .slot d.slot q) : p.Arrives d t := by
  obtain ⟨a, ha, hpath⟩ := h
  exact ⟨a, ha, hpath.tail ⟨hnext, hw⟩⟩

theorem Starts.isReachable (h : p.Starts d q) (hp : p.WellShaped) : (Flow.of p).isReachable q.1 = true := by
  cases h with
  | parameter => exact hp.isReachable_zero
  | target hb => exact hb

end Proto

namespace Definitions

variable {ds : Definitions} {p : Proto} {r : Reaching} {b : BlockId} {i : Nat} {s : Stmt} {state : NatSet}

theorem mem_of_iff_defines {d : Definition} : d ∈ (of p (.of p)).list ↔ p.Defines d := by
  rw [mem_of]
  constructor
  · rintro (⟨s, hs, rfl⟩ | ⟨b, hb, hd⟩)
    · exact .parameter hs
    · obtain ⟨i, s, n, hs, hx, hsite⟩ := mem_ofBlock.1 hd
      obtain ⟨site, x⟩ := d
      subst hsite
      exact .target (Flow.mem_order.1 hb) hs hx
  · rintro (hs | ⟨hb, hs, hx⟩)
    · exact .inl ⟨_, hs, rfl⟩
    · exact .inr ⟨_, Flow.mem_order.2 hb, mem_ofBlock.2 ⟨_, _, _, hs, hx, rfl⟩⟩

theorem mem_foldl_iff {targets : List (Nat × Slot)} {e : Nat} (h : ds.Numbers b i targets)
    (horder : targets.Pairwise fun t t' => t.1 < t'.1) : e ∈ targets.foldl (ds.defineAt b i) state ↔
      (∃ n x, (n, x) ∈ targets ∧ ds.number? (.target b i n) = some e ∧ ∀ m, (m, x) ∈ targets → m ≤ n) ∨
        e ∈ state ∧ ∀ n x, (n, x) ∈ targets → ds.slot? e ≠ some x := by
  induction targets generalizing state with
  | nil => simp
  | cons t targets ih =>
    obtain ⟨k, y⟩ := t
    obtain ⟨d, hd, hdy⟩ := h k y (.head _)
    obtain ⟨hfirst, horder⟩ := List.pairwise_cons.1 horder
    rw [List.foldl_cons, ih (fun n x hx => h n x (.tail _ hx)) horder, mem_defineAt hd]
    constructor
    · rintro (⟨n, x, hx, he, hlast⟩ | ⟨rfl | ⟨he, hey⟩, hkept⟩)
      · refine .inl ⟨n, x, .tail _ hx, he, fun m hm => ?_⟩
        rcases List.mem_cons.1 hm with hm | hm
        · cases hm
          exact Nat.le_of_lt (hfirst _ hx)
        · exact hlast m hm
      · refine .inl ⟨k, y, .head _, hd, fun m hm => ?_⟩
        rcases List.mem_cons.1 hm with hm | hm
        · cases hm
          exact Nat.le_refl _
        · exact absurd hdy (hkept m y hm)
      · refine .inr ⟨he, fun n x hx => ?_⟩
        rcases List.mem_cons.1 hx with hx | hx
        · cases hx
          exact hey
        · exact hkept n x hx
    · rintro (⟨n, x, hx, he, hlast⟩ | ⟨he, hkept⟩)
      · rcases List.mem_cons.1 hx with hx | hx
        · cases hx
          obtain rfl : d = e := Option.some.inj (hd.symm.trans he)
          refine .inr ⟨.inl rfl, fun m z hm hz => ?_⟩
          obtain rfl : y = z := Option.some.inj (hdy.symm.trans hz)
          exact absurd (hlast m (.tail _ hm)) (Nat.not_le.2 (hfirst _ hm))
        · exact .inl ⟨n, x, hx, he, fun m hm => hlast m (.tail _ hm)⟩
      · exact .inr ⟨.inr ⟨he, hkept k y (.head _)⟩, fun n x hx => hkept n x (.tail _ hx)⟩

theorem mem_transfer_iff {e : Nat} (hb : (Flow.of p).isReachable b = true) (hs : (p.body b)[i]? = some s) :
    e ∈ (of p (.of p)).transfer b i s state ↔
      (∃ n x, (n, x) ∈ s.slotTargets ∧ (of p (.of p)).number? (.target b i n) = some e ∧
        ∀ m, (m, x) ∈ s.slotTargets → m ≤ n) ∨
      e ∈ state ∧ ∀ n x, (n, x) ∈ s.slotTargets → (of p (.of p)).slot? e ≠ some x :=
  mem_foldl_iff (numbers_slotTargets (Flow.mem_order.2 hb) hs) s.pairwise_slotTargets

theorem writes_iff {x : Slot} (hs : (p.body b)[i]? = some s) :
    p.Writes .slot x (b, i) ↔ ∃ n, (n, x) ∈ s.slotTargets := by
  constructor
  · rintro ⟨ht, hx⟩
    obtain rfl := Option.some.inj (hs.symm.trans ht)
    exact mem_writtenSlots.1 hx
  · intro h
    exact .stmt hs (mem_writtenSlots.2 h)

def Numbered (p : Proto) (n : Nat) (d : Definition) : Prop := (of p (.of p)).list[n]? = some d

theorem exists_numbered {d : Definition} (h : p.Defines d) : ∃ n, Numbered p n d :=
  List.mem_iff_getElem?.1 (mem_of_iff_defines.2 h)

namespace Numbered

variable {n : Nat} {d : Definition} (h : Numbered p n d)
include h

theorem defines : p.Defines d := mem_of_iff_defines.1 (List.mem_of_getElem? h)

theorem slot? : (of p (.of p)).slot? n = some d.slot := by
  rw [Definitions.slot?, h]
  rfl

theorem number? : (of p (.of p)).number? d.site = some n := number?_of_getElem? h

theorem lt_size : n < (of p (.of p)).size := (List.getElem?_eq_some_iff.1 h).1

theorem eq {e : Definition} (he : Numbered p n e) : d = e := Option.some.inj (Eq.trans (Eq.symm h) he)

theorem inj {m : Nat} (hm : Numbered p m d) : n = m := Option.some.inj (h.number?.symm.trans hm.number?)

end Numbered

theorem spreads_arrives (p : Proto) : Spreads p fun n q => ∀ d, Numbered p n d → p.Arrives d q where
  parameter := by
    intro n hn d hd
    obtain rfl : ⟨.parameter n, n⟩ = d := Numbered.eq (getElem?_parameter hn) hd
    exact ⟨(0, 0), .parameter hn, .refl⟩
  stmt := by
    intro b i s state n hb hs hstate hn d hd
    have hi := (List.getElem?_eq_some_iff.1 hs).1
    rcases (mem_transfer_iff hb hs).1 hn with ⟨m, x, hx, hnumber, hlast⟩ | ⟨hn, hkept⟩
    · obtain ⟨y, hy⟩ := number?_eq_some hnumber
      obtain rfl := Numbered.eq hy hd
      cases mem_of_iff_defines.1 (List.mem_of_getElem? hy) with
      | target _ hs' hy' =>
        obtain rfl := Option.some.inj (hs.symm.trans hs')
        obtain rfl := eq_of_mem_slotTargets hx hy'
        exact ⟨(b, i + 1), .target hb hs hx hlast, .refl⟩
    · refine (hstate n hn d hd).next (.stmt hi) fun hw => ?_
      obtain ⟨m, hm⟩ := (writes_iff hs).1 hw
      exact hkept m _ hm hd.slot?
  jump := by
    intro b c n hb hc h d hd
    refine (h d hd).next (.jump rfl hc) fun ⟨hs, _⟩ => ?_
    simp at hs

variable (hp : p.WellShaped) (hr : ((of p (.of p)).equations p (.of p)).Solves r.atEntry r.atExit)
include hp hr

theorem exists_state_of_starts {n : Nat} {d : Definition} (hn : Numbered p n d) {q : Point} (h : p.Starts d q) :
    ∃ state, ((of p (.of p)).states p r q.1)[q.2]? = some state ∧ n ∈ state := by
  cases h with
  | parameter hs =>
    obtain rfl := hn.inj (getElem?_parameter hs)
    refine ⟨_, alongFrom_zero, (settled_of_solves hr).parameters hp ?_⟩
    exact NatSet.mem_ofList.2 (List.mem_filter.2 ⟨List.mem_range.2 hn.lt_size, isParameter_iff.2 hs⟩)
  | target hb hs hx hlast =>
    obtain ⟨before, -, hafter⟩ := states_succ (of p (.of p)) r hs
    exact ⟨_, hafter, (mem_transfer_iff hb hs).2 (.inl ⟨_, _, hx, hn.number?, hlast⟩)⟩

theorem exists_state_of_arrives {n : Nat} {d : Definition} (hn : Numbered p n d) {q : Point} (h : p.Arrives d q) :
    (Flow.of p).isReachable q.1 = true ∧
      ∃ state, ((of p (.of p)).states p r q.1)[q.2]? = some state ∧ n ∈ state := by
  obtain ⟨t, ht, hpath⟩ := h
  induction hpath with
  | refl => exact ⟨ht.isReachable hp, exists_state_of_starts hp hr hn ht⟩
  | tail hpath hstep ih =>
    obtain ⟨hb, state, hstate, hmem⟩ := ih
    obtain ⟨hnext, hkept⟩ := hstep
    refine ⟨hp.isReachable_next hb hnext, ?_⟩
    cases hnext with
    | stmt hi =>
      have hs := List.getElem?_eq_getElem hi
      obtain ⟨before, hbefore, hafter⟩ := states_succ (of p (.of p)) r hs
      obtain rfl := Option.some.inj (hbefore.symm.trans hstate)
      refine ⟨_, hafter, (mem_transfer_iff hb hs).2 (.inr ⟨hmem, fun m x hx hslot => hkept ?_⟩)⟩
      obtain rfl := Option.some.inj (hslot.symm.trans hn.slot?)
      exact (writes_iff hs).2 ⟨m, hx⟩
    | jump hi hc =>
      subst hi
      obtain rfl := Option.some.inj (((settled_of_solves hr).atExit hb).symm.trans hstate)
      exact ⟨_, alongFrom_zero, (settled_of_solves hr).edge hp hb hc hmem⟩

theorem mem_states_iff {q : Point} (hb : (Flow.of p).isReachable q.1 = true) {state : NatSet}
    (hstate : ((of p (.of p)).states p r q.1)[q.2]? = some state) {n : Nat} {d : Definition} (hn : Numbered p n d) :
    n ∈ state ↔ p.Arrives d q := by
  constructor
  · intro hmem
    exact (spreads_arrives p).of_mem_states hb hp hr hstate n hmem d hn
  · intro h
    obtain ⟨-, state', hstate', hmem⟩ := exists_state_of_arrives hp hr hn h
    obtain rfl := Option.some.inj (hstate.symm.trans hstate')
    exact hmem

end Definitions

end LuaLift
