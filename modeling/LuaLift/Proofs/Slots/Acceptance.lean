import LuaLift.Proofs.Proto.Undefined
import LuaLift.Proofs.Slots.InPlace
import LuaLift.Proofs.Slots.Liveness

namespace LuaLift

namespace Definitions

variable {ds : Definitions} {p : Proto} {r : Reaching} {b : BlockId}

theorem zip_alongFrom (stateAt : Nat → NatSet) (ss : List Stmt) (last : List Slot) {i : Nat} {state : NatSet}
    (hat : ∀ (j : Nat) state', (ds.alongFrom b i state ss)[j]? = some state' → stateAt (i + j) = state') :
    (((ds.alongFrom b i state ss).zip (ss.map (·.readSlots) ++ [last])).flatMap fun (state, reads) =>
      reads.map fun s => (s, ds.ofSlot state s)) =
      (Proto.readsFrom b i ss last).map fun e => (e.2, ds.ofSlot (stateAt e.1.2) e.2) := by
  induction ss generalizing i state with
  | nil =>
    obtain rfl : stateAt i = state := hat 0 state rfl
    simp [alongFrom, Proto.readsFrom]
  | cons s ss ih =>
    obtain rfl : stateAt i = state := hat 0 state rfl
    have hrest := ih fun j state' hj => by
      have := hat (j + 1) state' hj
      rwa [show i + (j + 1) = i + 1 + j by omega] at this
    simp only [alongFrom, Proto.readsFrom, List.map_cons, List.cons_append, List.zip_cons_cons, List.flatMap_cons,
      List.map_append, hrest, List.map_map, Function.comp_def]

theorem readsIn_eq {block : Block} (hblock : p.blocks[b]? = some block) : ds.readsIn p r b =
    (p.readsOf b).map fun e => (e.2, ds.ofSlot ((ds.states p r b)[e.1.2]?.getD ∅) e.2) := by
  have hbody : p.body b = block.body := Proto.body_of_getElem? hblock
  have hjump : p.jump b = block.jump := Proto.jump_of_getElem? hblock
  unfold readsIn Proto.readsOf
  rw [hblock, hbody, hjump]
  simp only [Block.slotReads, states, hbody]
  apply zip_alongFrom fun i => ((ds.alongFrom b 0 (r.atEntry b) block.body)[i]?).getD ∅
  intro j state hj
  rw [Nat.zero_add, hj]
  rfl

open Classical in
theorem undefinedRead?_eq (hp : p.WellShaped)
    (hr : ((of p (.of p)).equations p (.of p)).Solves r.atEntry r.atExit) :
    (of p (.of p)).undefinedRead? p (.of p) r =
      (p.readsInOrder.find? fun e => !decide (p.DefinedAt e.2 e.1)).map fun e => (e.1.1, e.2) := by
  have hfirst : (of p (.of p)).undefinedRead? p (.of p) r = (Flow.of p).order.findSome? fun b =>
      ((((of p (.of p)).readsIn p r b).find? (·.2.isEmpty)).map (·.1)).map (b, ·) := by
    simp only [undefinedRead?, Option.map_map]
    rfl
  rw [hfirst]
  apply Proto.findSome?_reads
  intro b hb
  have hrb := Flow.mem_order.1 hb
  rw [readsIn_eq (List.getElem?_eq_getElem (hp.lt_of_isReachable hrb)), List.find?_map, Option.map_map]
  refine congrArg (Option.map fun e : Point × Slot => e.2) (List.find?_congr ?_)
  rintro ⟨⟨c, j⟩, y⟩ he
  obtain ⟨rfl, hj⟩ := Proto.mem_readsFrom he
  rw [Nat.zero_add] at hj
  obtain ⟨state, hstate⟩ : ∃ state, ((of p (.of p)).states p r c)[j]? = some state := by
    refine ⟨_, List.getElem?_eq_getElem ?_⟩
    rw [states, length_alongFrom]
    exact Nat.lt_succ_of_le hj
  have hreached : (of p (.of p)).ofSlot state y ≠ [] ↔ p.DefinedAt y (c, j) := by
    rw [← reached_iff hp hr hrb]
    constructor
    · intro hne
      obtain ⟨d, hd⟩ := List.exists_mem_of_ne_nil _ hne
      exact ⟨state, d, hstate, mem_ofSlot.1 hd⟩
    · rintro ⟨state', d, hstate', hd⟩
      obtain rfl : state' = state := Option.some.inj (hstate'.symm.trans hstate)
      exact List.ne_nil_of_mem (mem_ofSlot.2 hd)
  rw [Bool.eq_iff_iff, Bool.not_eq_true', decide_eq_false_iff_not, ← hreached, not_not]
  simp [hstate]

end Definitions

namespace Proto

open Definitions

variable {p : Proto} {b : BlockId} {x : Slot} {rounds : Nat}

section Settled

variable (hp : p.WellShaped) (hrounds : p.blocks.length + 2 ≤ rounds)
include hp hrounds

theorem resolve_of_undefined (h : p.undefinedSlot? (.of p) = some (b, x)) :
    p.resolve rounds = .error (.malformed (.undefinedSlot b x)) := by
  obtain ⟨l, -, hl, -⟩ := Liveness.exists_solve hp .slot
  obtain ⟨r, hr, hreach, -⟩ := exists_reaching hp (.of p (.of p))
  rw [undefinedSlot?_eq hp, ← undefinedRead?_eq hp hr] at h
  unfold resolve
  simp only [hl rounds hrounds, hreach rounds hrounds, h, bind, Except.bind]
  rfl

theorem resolve_of_defined (h : p.undefinedSlot? (.of p) = none) : ∃ q t, p.resolve rounds = .ok (q, t) := by
  obtain ⟨l, -, hl, -⟩ := Liveness.exists_solve hp .slot
  obtain ⟨r, hr, hreach, -⟩ := exists_reaching hp (.of p (.of p))
  rw [undefinedSlot?_eq hp, ← undefinedRead?_eq hp hr] at h
  unfold resolve
  simp only [hl rounds hrounds, hreach rounds hrounds, h, bind, Except.bind]
  exact ⟨_, _, rfl⟩

end Settled

/-- With two rounds more than there are blocks, all sweeps settle, and with any other number of rounds in
which they settle too they find the same sets. -/
theorem sweeps_settle (hp : p.violation? = none) (hrounds : p.blocks.length + 2 ≤ rounds) :
    (∀ kind, ∃ l, Liveness.solve kind p rounds = .ok l ∧ ∀ m k, Liveness.solve kind p m = .ok k → k = l) ∧
      (∃ r, (Definitions.of p (.of p)).reaching p (.of p) rounds = .ok r ∧
        ∀ m k, (Definitions.of p (.of p)).reaching p (.of p) m = .ok k → k = r) ∧
      ∀ m, p.resolve rounds ≠ .error (.unsettled m) := by
  have hshape := wellShaped_of_violation hp
  refine ⟨fun kind => ?_, ?_, fun m herror => ?_⟩
  · obtain ⟨l, -, hl, hunique⟩ := Liveness.exists_solve hshape kind
    exact ⟨l, hl rounds hrounds, hunique⟩
  · obtain ⟨r, -, hr, hunique⟩ := exists_reaching hshape (.of p (.of p))
    exact ⟨r, hr rounds hrounds, hunique⟩
  · obtain ⟨q, t, hok⟩ := resolve_of_defined hshape hrounds (violation?_eq_none_iff.1 hp).2
    rw [hok] at herror
    cases herror

theorem sweeps_settle_twoEntries : ∃ l, Liveness.solve .slot Liveness.twoEntries 6 = .ok l ∧
    ∀ m k, Liveness.solve .slot Liveness.twoEntries m = .ok k → k = l :=
  (sweeps_settle (by cbv) (by decide)).1 .slot

/-- Resolution fails where the check does, at the first read that no path defines, and it fails at nothing
else. So does a check by sweeps without a limit. A function that resolution fails on stays as it was. -/
theorem resolve_agrees (hp : p.structuralViolation? = none) :
    (∀ rounds, p.blocks.length + 2 ≤ rounds →
      (∀ b x, p.resolve rounds = .error (.malformed (.undefinedSlot b x)) ↔
        p.undefinedSlot? (.of p) = some (b, x)) ∧
      (p.undefinedSlot? (.of p) = none → ∃ q t, p.resolve rounds = .ok (q, t))) ∧
    (p.undefinedSlot? (.of p) = none ↔ ∀ e ∈ p.readsInOrder, p.DefinedAt e.2 e.1) ∧
    (∀ b x, p.undefinedSlot? (.of p) = some (b, x) ↔
      ∃ i before after, p.readsInOrder = before ++ ((b, i), x) :: after ∧ (∀ e ∈ before, p.DefinedAt e.2 e.1) ∧
        ¬p.DefinedAt x (b, i)) ∧
    (∃ rows, (∀ n, p.blocks.length + 2 ≤ n →
        settleBy p.sweepDefined n (List.replicate p.blocks.length ∅) = some rows) ∧
      p.undefinedBy? rows = p.undefinedSlot? (.of p)) ∧
    (∀ rounds e, p.resolve rounds = .error e → (resolveInPlace rounds).runOn p = (.error e, p)) ∧
    ∀ rounds q t, p.resolve rounds = .ok (q, t) → (resolveInPlace rounds).runOn p = (.ok t, q) := by
  have hshape := wellShaped_of_structuralViolation hp
  refine ⟨fun rounds hrounds => ⟨fun b x => ⟨fun herror => ?_, resolve_of_undefined hshape hrounds⟩,
    resolve_of_defined hshape hrounds⟩, ?_, fun b x => ?_, exists_definedness hshape,
    fun rounds e herror => ?_, fun rounds q t hok => ?_⟩
  · cases hfirst : p.undefinedSlot? (.of p) with
    | none =>
      obtain ⟨q, t, hok⟩ := resolve_of_defined hshape hrounds hfirst
      rw [hok] at herror
      cases herror
    | some e =>
      rw [resolve_of_undefined hshape hrounds hfirst] at herror
      cases herror
      rfl
  · rw [undefinedSlot?_eq hshape, Option.map_eq_none_iff, List.find?_eq_none]
    simp
  · rw [undefinedSlot?_eq hshape, Option.map_eq_some_iff]
    constructor
    · rintro ⟨⟨⟨c, i⟩, y⟩, hfind, he⟩
      cases he
      obtain ⟨hn, before, after, hreads, hbefore⟩ := List.find?_eq_some_iff_append.1 hfind
      exact ⟨i, before, after, hreads, by simpa using hbefore, by simpa using hn⟩
    · rintro ⟨i, before, after, hreads, hbefore, hn⟩
      refine ⟨((b, i), x), List.find?_eq_some_iff_append.2 ⟨by simpa using hn, before, after, hreads, ?_⟩, rfl⟩
      simpa using hbefore
  · rw [runOn_resolveInPlace hshape, herror]
  · rw [runOn_resolveInPlace hshape, hok]

def undefinedInBranch : Proto :=
  { id := 0
    blocks := [
      ⟨0, 0, 0, [], .branch (.global "c") 1 2⟩,
      ⟨1, 1, 1, [.assign ⟨[.slot 0], [.global "a"], false, 0⟩], .always 3⟩,
      ⟨2, 2, 2, [.call (.global "f") [.slot 1] 0], .always 3⟩,
      ⟨3, 3, 3, [.ret [.slot 0] 0], .leave⟩] }

theorem resolve_agrees_undefinedInBranch :
    undefinedInBranch.resolve 6 = .error (.malformed (.undefinedSlot 2 1)) ∧
      (resolveInPlace 6).runOn undefinedInBranch =
        (.error (.malformed (.undefinedSlot 2 1)), undefinedInBranch) := by
  obtain ⟨hagrees, -, -, -, hunchanged, -⟩ := resolve_agrees (p := undefinedInBranch) (by cbv)
  have herror := ((hagrees 6 (by decide)).1 2 1).2 (by cbv)
  exact ⟨herror, hunchanged 6 _ herror⟩

end Proto

end LuaLift
