import LuaLift.Proofs.Slots.Defined
import LuaLift.Proofs.Slots.Variables

/-!
Resolution as a pass that changes the function in place, one statement after the other. It looks up every read
again on its way and may fail there, but if all reads were defined before the first change none of these
look-ups can. So it leaves the resolved function behind, or the function as it was.
-/

namespace LuaLift

abbrev Pass := ExceptT Reason (StateM Proto)

namespace Pass

variable {α β : Type} {p q : Proto}

def runOn (m : Pass α) (p : Proto) : Except Reason α × Proto := (m.run.run p).run

@[simp] theorem runOn_pure (a : α) : (pure a : Pass α).runOn p = (.ok a, p) := rfl

@[simp] theorem runOn_get : (get : Pass Proto).runOn p = (.ok p, p) := rfl

@[simp] theorem runOn_modify (f : Proto → Proto) : (modify f : Pass Unit).runOn p = (.ok (), f p) := rfl

theorem runOn_bind {m : Pass α} {a : α} (h : m.runOn p = (.ok a, q)) (k : α → Pass β) :
    (m >>= k).runOn p = (k a).runOn q := by
  change ((m.run.run p).run.1, (m.run.run p).run.2) = _ at h
  obtain ⟨h₁, h₂⟩ := Prod.mk.inj h
  change StateT.run (ExceptT.bindCont k (m.run.run p).run.1) (m.run.run p).run.2 = _
  rw [h₁, h₂]
  rfl

theorem runOn_bind_error {m : Pass α} {e : Reason} (h : m.runOn p = (.error e, q)) (k : α → Pass β) :
    (m >>= k).runOn p = (.error e, q) := by
  change ((m.run.run p).run.1, (m.run.run p).run.2) = _ at h
  obtain ⟨h₁, h₂⟩ := Prod.mk.inj h
  change StateT.run (ExceptT.bindCont k (m.run.run p).run.1) (m.run.run p).run.2 = _
  rw [h₁, h₂]
  rfl

theorem runOn_ofExcept_ok {a : α} {e : Except Reason α} (h : e = .ok a) :
    (ofExcept e : Pass α).runOn p = (.ok a, p) := by
  rw [h]
  rfl

theorem runOn_ofExcept_error {x : Reason} {e : Except Reason α} (h : e = .error x) :
    (ofExcept e : Pass α).runOn p = (.error x, p) := by
  rw [h]
  rfl

end Pass

namespace Definitions

variable (ds : Definitions) (webs : Partition)

def lookUp (b : BlockId) (state : NatSet) (x : Slot) : Pass Unit :=
  match (ds.ofSlot state x).head?.bind (ds.localOf? webs) with
  | some _ => pure ()
  | none => throw (.malformed (.undefinedSlot b x))

def rewriteStatement (b : BlockId) (state : NatSet) (i : Nat) : Pass NatSet := do
  match ((← get).body b)[i]? with
  | none => return state
  | some s =>
    s.readSlots.forM (ds.lookUp webs b state)
    modify (·.modify b fun block => { block with
      body := block.body.modify i (·.bindSlots (ds.read webs state) fun position =>
        (ds.number? (.target b i position)).bind (ds.localOf? webs)) })
    return ds.transfer b i s state

def rewriteBlock (b : BlockId) (entry : NatSet) : Pass Unit := do
  let count := ((← get).body b).length
  let state ← (List.range count).foldlM (ds.rewriteStatement webs b) entry
  (((← get).jump b).reads .slot).forM (ds.lookUp webs b state)
  modify (·.modify b fun block => { block with
    jump := block.jump.mapCondition (·.bindSlots (ds.read webs state)) })

end Definitions

def Proto.resolveInPlace (rounds : Nat) : Pass Locals := do
  let p ← get
  let f := Flow.of p
  let l ← ofExcept (Liveness.solve .slot p rounds)
  let ds := Definitions.of p f
  let r ← ofExcept (ds.reaching p f rounds)
  match ds.undefinedRead? p f r with
  | some (b, s) => throw (.malformed (.undefinedSlot b s))
  | none =>
    let webs := ds.webs p f r l
    let table := ds.locals p webs
    f.order.forM fun b => ds.rewriteBlock webs b (r.atEntry b)
    return table

namespace Definitions

variable {ds : Definitions} {webs : Partition} {p q : Proto} {r : Reaching} {b : BlockId} {state : NatSet}

theorem runOn_lookUp {xs : List Slot} (h : ∀ x ∈ xs, ds.ofSlot state x ≠ []) :
    (xs.forM (ds.lookUp webs b state)).runOn q = (.ok (), q) := by
  induction xs with
  | nil => rfl
  | cons x xs ih =>
    have hx : (ds.lookUp webs b state x).runOn q = (.ok (), q) := by
      cases hl : ds.ofSlot state x with
      | nil => exact absurd hl (h x (.head _))
      | cons d l =>
        have hd : d ∈ ds.ofSlot state x := hl ▸ .head _
        obtain ⟨v, hv⟩ := exists_localOf? (c := webs) (lt_size_of_slot? (mem_ofSlot.1 hd).2)
        simp [lookUp, hl, hv]
    rw [List.forM_eq_forM, List.forM_cons, Pass.runOn_bind hx]
    exact ih fun y hy => h y (.tail _ hy)

def partly (ds : Definitions) (p : Proto) (webs : Partition) (r : Reaching) (b : BlockId) (i : Nat)
    (block : Block) : Block :=
  { block with body := block.body.zipIdx.map fun (s, j) =>
      if j < i then s.bindSlots (ds.read webs ((ds.states p r b)[j]?.getD ∅)) fun position =>
        (ds.number? (.target b j position)).bind (ds.localOf? webs)
      else s }

theorem partly_zero (block : Block) : ds.partly p webs r b 0 block = block := by
  simp only [partly, Nat.not_lt_zero, if_false]
  exact congrArg (fun body => { block with body }) (List.zipIdx_map_fst 0 block.body)

theorem getElem?_partly_self {block : Block} {i : Nat} :
    (ds.partly p webs r b i block).body[i]? = block.body[i]? := by
  simp only [partly, List.getElem?_map, List.getElem?_zipIdx, Option.map_map]
  cases block.body[i]? <;> simp

theorem partly_succ {block : Block} {i : Nat} (hstate : (ds.states p r b)[i]? = some state) :
    ds.partly p webs r b (i + 1) block = { ds.partly p webs r b i block with
      body := (ds.partly p webs r b i block).body.modify i (·.bindSlots (ds.read webs state) fun position =>
        (ds.number? (.target b i position)).bind (ds.localOf? webs)) } := by
  have hbody : (ds.partly p webs r b (i + 1) block).body = (ds.partly p webs r b i block).body.modify i
      (·.bindSlots (ds.read webs state) fun position =>
        (ds.number? (.target b i position)).bind (ds.localOf? webs)) := by
    apply List.ext_getElem?
    intro j
    rw [List.getElem?_modify]
    simp only [partly, List.getElem?_map, List.getElem?_zipIdx, Option.map_map]
    cases block.body[j]? with
    | none => rfl
    | some s =>
      simp only [Option.map_some, Option.map_eq_map, Function.comp_apply, Nat.zero_add]
      rcases Nat.lt_trichotomy i j with hij | rfl | hij
      · rw [if_neg (Nat.not_lt.2 hij), if_neg (Nat.ne_of_lt hij), if_neg (Nat.lt_asymm hij)]
      · rw [if_pos (Nat.lt_succ_self i), if_pos rfl, if_neg (Nat.lt_irrefl i), hstate]
        rfl
      · rw [if_pos (Nat.lt_succ_of_lt hij), if_neg (Nat.ne_of_gt hij), if_pos hij]
  exact congrArg (fun body => { block with body }) hbody

theorem bindBlock_eq {block : Block} (hstate : (ds.states p r b)[block.body.length]? = some state) :
    ds.bindBlock p webs r b block = { ds.partly p webs r b block.body.length block with
      jump := block.jump.mapCondition (·.bindSlots (ds.read webs state)) } := by
  have hbody : (ds.partly p webs r b block.body.length block).body = (ds.bindBlock p webs r b block).body := by
    apply List.map_congr_left
    rintro ⟨s, j⟩ hs
    have hj := (List.getElem?_eq_some_iff.1 (List.mem_zipIdx_iff_getElem?.1 hs)).1
    exact if_pos hj
  simp only [hbody, bindBlock, hstate, Option.getD_some]
  rfl

section Block

variable {block : Block} (hp : p.blocks[b]? = some block) (hq : q.blocks[b]? = some block)
  (hreads : ∀ (i : Nat) reads state, block.slotReads[i]? = some reads → (ds.states p r b)[i]? = some state →
    ∀ x ∈ reads, ds.ofSlot state x ≠ [])
include hq hreads

theorem runOn_rewriteStatement {i : Nat} {s : Stmt} (hs : block.body[i]? = some s)
    (hstate : (ds.states p r b)[i]? = some state) :
    (ds.rewriteStatement webs b state i).runOn (q.modify b (ds.partly p webs r b i)) =
      (.ok (ds.transfer b i s state), q.modify b (ds.partly p webs r b (i + 1))) := by
  have hbody : ((q.modify b (ds.partly p webs r b i)).body b)[i]? = some s := by
    rw [← hs, ← @getElem?_partly_self ds webs p r b block i]
    simp [Proto.body, Proto.modify, hq]
  have hlookups : ∀ x ∈ s.readSlots, ds.ofSlot state x ≠ [] := by
    apply hreads i _ state _ hstate
    have hi := (List.getElem?_eq_some_iff.1 hs).1
    rw [Block.slotReads, List.getElem?_append_left (by simpa using hi), List.getElem?_map, hs]
    rfl
  unfold rewriteStatement
  rw [Pass.runOn_bind Pass.runOn_get]
  simp only [hbody]
  rw [Pass.runOn_bind (runOn_lookUp hlookups), Pass.runOn_bind (Pass.runOn_modify _), Pass.runOn_pure]
  simp only [Proto.modify, List.modify_modify_eq]
  congr
  funext block
  exact (partly_succ hstate).symm

include hp

theorem runOn_rewriteStatements (n : Nat) {i : Nat} (hi : i + n = block.body.length)
    (hstate : (ds.states p r b)[i]? = some state) : ∃ last, (ds.states p r b)[block.body.length]? = some last ∧
      ((List.range' i n).foldlM (ds.rewriteStatement webs b) state).runOn (q.modify b (ds.partly p webs r b i)) =
        (.ok last, q.modify b (ds.partly p webs r b block.body.length)) := by
  induction n generalizing i state with
  | zero =>
    obtain rfl : i = block.body.length := hi
    exact ⟨state, hstate, rfl⟩
  | succ n ih =>
    obtain ⟨s, hs⟩ : ∃ s, block.body[i]? = some s := ⟨_, List.getElem?_eq_getElem (by omega)⟩
    have hbody : (p.body b)[i]? = some s := by
      rw [← hs]
      simp [Proto.body, hp]
    obtain ⟨before, hbefore, hafter⟩ := states_succ ds r hbody
    obtain rfl : before = state := Option.some.inj (hbefore.symm.trans hstate)
    obtain ⟨last, hlast, hrun⟩ := ih (by omega) hafter
    refine ⟨last, hlast, ?_⟩
    rw [List.range'_succ, List.foldlM_cons, Pass.runOn_bind (runOn_rewriteStatement hq hreads hs hstate)]
    exact hrun

theorem runOn_rewriteBlock : (ds.rewriteBlock webs b (r.atEntry b)).runOn q =
    (.ok (), q.modify b (ds.bindBlock p webs r b)) := by
  have hcount : (q.body b).length = block.body.length := by simp [Proto.body, hq]
  have hnothing : q.modify b (ds.partly p webs r b 0) = q := by
    have hid : ds.partly p webs r b 0 = id := funext partly_zero
    rw [hid]
    exact Proto.with_blocks (List.modify_id b q.blocks)
  obtain ⟨last, hlast, hrun⟩ := runOn_rewriteStatements hp hq hreads _ (Nat.zero_add _) alongFrom_zero
  rw [hnothing, ← List.range_eq_range'] at hrun
  have hjump : (q.modify b (ds.partly p webs r b block.body.length)).jump b = block.jump := by
    simp [Proto.jump, Proto.modify, hq, partly]
  have hlookups : ∀ x ∈ block.jump.reads .slot, ds.ofSlot last x ≠ [] :=
    hreads _ _ last (by simp [Block.slotReads]) hlast
  unfold rewriteBlock
  rw [Pass.runOn_bind Pass.runOn_get]
  simp only [hcount]
  rw [Pass.runOn_bind hrun, Pass.runOn_bind Pass.runOn_get, hjump, Pass.runOn_bind (runOn_lookUp hlookups),
    Pass.runOn_modify]
  simp only [Proto.modify, List.modify_modify_eq]
  congr 2
  apply List.ext_getElem?
  intro j
  rw [List.getElem?_modify, List.getElem?_modify]
  by_cases hj : b = j
  · subst hj
    simp [hq, bindBlock_eq hlast, partly]
  · simp [hj]

end Block

theorem ofSlot_ne_nil (h : ds.undefinedRead? p (.of p) r = none) (hb : b ∈ (Flow.of p).order) {block : Block}
    (hblock : p.blocks[b]? = some block) (i : Nat) (reads : List Slot) (state : NatSet)
    (hi : block.slotReads[i]? = some reads) (hstate : (ds.states p r b)[i]? = some state) :
    ∀ x ∈ reads, ds.ofSlot state x ≠ [] := by
  intro x hx
  have hnone := List.findSome?_eq_none_iff.1 h b hb
  rw [Option.map_eq_none_iff, List.find?_eq_none] at hnone
  have hread : (x, ds.ofSlot state x) ∈ ds.readsIn p r b :=
    (mem_readsIn_iff hblock).2 ⟨i, state, reads, hstate, hi, hx, rfl⟩
  simpa using hnone _ hread

theorem runOn_rewriteBlocks (hp : p.WellShaped) (h : ds.undefinedRead? p (.of p) r = none) {bs : List BlockId}
    (hbs : ∀ b ∈ bs, b ∈ (Flow.of p).order) (hnodup : bs.Nodup)
    (hq : ∀ b ∈ bs, q.blocks[b]? = p.blocks[b]?) :
    (bs.forM fun b => ds.rewriteBlock webs b (r.atEntry b)).runOn q =
      (.ok (), { q with blocks := q.blocks.zipIdx.map fun (block, b) =>
        if b ∈ bs then ds.bindBlock p webs r b block else block }) := by
  induction bs generalizing q with
  | nil =>
    have hnothing : (q.blocks.zipIdx.map fun (e : Block × Nat) => e.1) = q.blocks := List.zipIdx_map_fst 0 q.blocks
    simp only [List.not_mem_nil, if_false]
    rw [Proto.with_blocks hnothing]
    rfl
  | cons b bs ih =>
    have hb := hbs b (.head _)
    have hblock := List.getElem?_eq_getElem (hp.lt_of_isReachable (Flow.mem_order.1 hb))
    obtain ⟨hnew, hnodup⟩ := List.nodup_cons.1 hnodup
    rw [List.forM_eq_forM, List.forM_cons,
      Pass.runOn_bind (runOn_rewriteBlock hblock ((hq b (.head _)).trans hblock) (ofSlot_ne_nil h hb hblock))]
    -- A block is rewritten once, so the other ones are still found as they were.
    refine (ih (fun c hc => hbs c (.tail _ hc)) hnodup fun c hc => ?_).trans ?_
    · have hbc : b ≠ c := fun he => hnew (he ▸ hc)
      rw [Proto.modify, List.getElem?_modify_ne _ _ hbc]
      exact hq c (.tail _ hc)
    · congr 2
      apply List.ext_getElem?
      intro i
      simp only [Proto.modify, List.getElem?_map, List.getElem?_zipIdx, List.getElem?_modify, Option.map_map]
      cases q.blocks[i]? with
      | none => rfl
      | some block =>
        by_cases hi : b = i
        · subst hi
          simp [hnew]
        · simp [hi, Ne.symm hi]

end Definitions

theorem Proto.runOn_resolveInPlace {p : Proto} (hp : p.WellShaped) (rounds : Nat) :
    (resolveInPlace rounds).runOn p = match p.resolve rounds with
      | .ok (q, t) => (.ok t, q)
      | .error e => (.error e, p) := by
  unfold resolveInPlace resolve
  rw [Pass.runOn_bind Pass.runOn_get]
  simp only
  cases hl : Liveness.solve .slot p rounds with
  | error e => rw [Pass.runOn_bind_error (Pass.runOn_ofExcept_error rfl)]; rfl
  | ok l =>
    rw [Pass.runOn_bind (Pass.runOn_ofExcept_ok rfl)]
    cases hr : (Definitions.of p (.of p)).reaching p (.of p) rounds with
    | error e => rw [Pass.runOn_bind_error (Pass.runOn_ofExcept_error rfl)]; rfl
    | ok r =>
      rw [Pass.runOn_bind (Pass.runOn_ofExcept_ok rfl)]
      simp only [bind, Except.bind]
      cases hd : (Definitions.of p (.of p)).undefinedRead? p (.of p) r with
      | some e => rfl
      | none =>
        simp only
        refine (Pass.runOn_bind (Definitions.runOn_rewriteBlocks hp hd (fun _ hb => hb) (Flow.of p).nodup_order
          fun _ _ => rfl) _).trans ?_
        simp only [Pass.runOn_pure, Flow.mem_order]
        rfl

end LuaLift
