import LuaLift.Proofs.Tree.Scoping

/-!
Soundness of the check of scopes: an interpreter that creates variables where they are declared and drops them with
their scope finds in every accepted function whatever it uses, however its tests turn out and its loops go on.
-/

namespace LuaLift

namespace Expr

def IsPlace : Expr → Prop
  | slot _ | var _ | upvalue _ | global _ | index .. => True
  | _ => False

def storeCells (declares : Bool) : Expr → List Cell
  | slot s => [⟨.slot, s⟩]
  | var v => if declares then [] else [⟨.var, v⟩]
  | upvalue _ | global _ | index .. => []
  | e => e.cells

end Expr

def Stmt.touched : Stmt → List Cell
  | assign a => (assign a).operands.flatMap Expr.cells ++ a.targets.flatMap (Expr.storeCells a.declares)
  | s => s.operands.flatMap Expr.cells

/-- Cells that a node uses where it begins, as if no operand were ever skipped. The test of a `repeat` comes at the
end of its body. -/
def Node.touched : Node → List Cell
  | stmt s => s.touched
  | repeatUntil _ _ => []
  | n => n.expressions.flatMap Expr.cells

namespace Interpreter

structure OpenScope where
  todo : Body
  live : List LocalId
  loop? : Option Node

abbrev Stack := List OpenScope

inductive Fault where
  | missing (v : LocalId)
  | rawSlot (s : Slot)
  | strayBreak
  deriving DecidableEq

abbrev Stepped := Except Fault Stack

def existing (st : Stack) : List LocalId := st.flatMap (·.live)

def inLoop (st : Stack) : Bool := st.any (·.loop?.isSome)

def useCell (vars : List LocalId) : Cell → Except Fault Unit
  | ⟨.slot, s⟩ => .error (.rawSlot s)
  | ⟨.var, v⟩ => if v ∈ vars then .ok () else .error (.missing v)

def use (st : Stack) (cs : List Cell) : Except Fault Unit := cs.forM (useCell (existing st))

def scopeOf (n : Node) (b : Body) : OpenScope := ⟨b, n.headerVars, if n.isLoop then some n else none⟩

def leaveLoop : Stack → Stepped
  | [] => .error .strayBreak
  | s :: outer => if s.loop?.isSome then .ok outer else leaveLoop outer

def enter (holds : Bool) (n : Node) (st : Stack) : Stepped :=
  match n with
  | .stmt s => .ok (if s.isReturn then [] else st)
  | .brk => leaveLoop st
  | .scope b | .repeatUntil b _ => .ok (scopeOf n b :: st)
  | .ifElse _ a b => .ok (scopeOf n (if holds then a else b) :: st)
  | .ifThen _ b | .whileDo _ b | .numericFor _ _ _ _ b | .genericFor _ _ b =>
    .ok (if holds then scopeOf n b :: st else st)

def again (holds : Bool) (n : Node) (vars : List LocalId) (outer : Stack) : Stepped :=
  match n with
  | .repeatUntil b c => do
    use (⟨[], vars, some n⟩ :: outer) c.cells
    return if holds then outer else scopeOf n b :: outer
  | .whileDo c b => do
    use outer c.cells
    return if holds then scopeOf n b :: outer else outer
  | .numericFor _ _ _ _ b | .genericFor _ _ b => .ok (if holds then scopeOf n b :: outer else outer)
  | _ => .ok outer

/-- One step, given the outcome of a test if there is one, or whether a `for` has a next turn. What a statement
declares exists behind it. -/
def step (holds : Bool) : Stack → Stepped
  | [] => .ok []
  | ⟨[], _, none⟩ :: outer => .ok outer
  | ⟨[], vars, some n⟩ :: outer => again holds n vars outer
  | ⟨n :: rest, vars, l⟩ :: outer => do
    use (⟨n :: rest, vars, l⟩ :: outer) n.touched
    enter holds n (⟨rest, vars ++ n.opened, l⟩ :: outer)

def run (outcomes : List Bool) (st : Stack) : Stepped := outcomes.foldlM (fun st holds => step holds st) st

def start (r : Routine) : Stack := [⟨r.body, r.parameters, none⟩]

variable {vars vars' : List LocalId} {loop : Bool} {n : Node} {b behind : Body} {st outer : Stack}

structure Clean (n : Node) : Prop where
  cells : ∀ c ∈ n.cells, c.kind = .var
  places : ∀ a, n = .stmt (.assign a) → ∀ e ∈ a.targets, e.IsPlace

structure Safe (vars : List LocalId) (loop : Bool) (b : Body) : Prop where
  sees : ∀ v, Node.SeesAll v (v ∈ vars) b
  ends : Node.EndsAll loop b
  clean : ∀ n ∈ Node.nodesOf b, Clean n

theorem mem_storeCells {e : Expr} {declares : Bool} {c : Cell} (he : e.IsPlace) (hc : c ∈ e.storeCells declares) :
    e.cell? = some c ∧ (c.kind = .var → declares = false) := by
  cases e <;> cases he
  case slot s =>
    obtain rfl := List.mem_singleton.1 hc
    exact ⟨rfl, fun h => by cases h⟩
  case var v =>
    cases declares with
    | true => cases hc
    | false =>
      obtain rfl := List.mem_singleton.1 hc
      exact ⟨rfl, fun _ => rfl⟩
  all_goals cases hc

theorem exists_var {es : List Expr} {c : Cell} (hc : c ∈ es.flatMap Expr.cells) (hk : c.kind = .var) :
    ∃ v ∈ es.flatMap (·.vars), c = ⟨.var, v⟩ := by
  obtain ⟨kind, v⟩ := c
  cases hk
  obtain ⟨e, he, hc⟩ := List.mem_flatMap.1 hc
  exact ⟨v, List.mem_flatMap.2 ⟨e, he, Expr.mem_reads.2 hc⟩, rfl⟩

theorem Clean.touched (h : Clean n) {c : Cell} (hc : c ∈ n.touched) : ∃ v ∈ n.ownUses, c = ⟨.var, v⟩ := by
  cases n with
  | stmt s =>
    cases s with
    | assign a =>
      rcases List.mem_append.1 hc with hc | hc
      · obtain ⟨v, hv, rfl⟩ := exists_var hc (h.cells c (List.mem_append_left _ hc))
        exact ⟨v, List.mem_append_left _ hv, rfl⟩
      · obtain ⟨e, he, hc⟩ := List.mem_flatMap.1 hc
        obtain ⟨hcell, hdeclares⟩ := mem_storeCells (h.places a rfl e he) hc
        have hk := h.cells c (List.mem_append_right _ (List.mem_filterMap.2 ⟨e, he, hcell⟩))
        obtain ⟨kind, v⟩ := c
        cases hk
        obtain rfl := Expr.ofCell_of_cell? hcell
        refine ⟨v, List.mem_append_right _ ?_, rfl⟩
        rw [hdeclares rfl]
        exact List.mem_filterMap.2 ⟨_, he, rfl⟩
    | declare vs => cases hc
    | call f as l => exact exists_var hc (h.cells c hc)
    | ret es l => exact exists_var hc (h.cells c hc)
  | repeatUntil b c => cases hc
  | _ => exact exists_var hc (h.cells c (List.mem_append_left _ hc))

theorem endsAll_of_ends {isLast : Bool} (h : Node.Ends loop isLast n) :
    ∀ b ∈ n.bodies, Node.EndsAll (loop || n.isLoop) b := by
  cases n with
  | stmt s => simp [Node.bodies]
  | brk => simp [Node.bodies]
  | _ => simpa [Node.bodies, Node.isLoop] using h

namespace Safe

theorem mono (h : Safe vars loop b) (hsub : vars ⊆ vars') : Safe vars' loop b :=
  ⟨fun v => Node.sees_mono.2 _ _ _ (@hsub v) (h.sees v), h.ends, h.clean⟩

theorem single (h : Safe vars loop (n :: behind)) : Safe vars loop [n] := by
  refine ⟨fun v => ⟨(h.sees v).1, trivial⟩, ⟨?_, trivial⟩, fun m hm => h.clean m ?_⟩
  · cases n with
    | stmt s => exact fun _ => rfl
    | brk => exact ⟨h.ends.1.1, rfl⟩
    | _ => exact h.ends.1
  · simp only [Node.nodesOf, List.append_nil] at hm
    exact List.mem_append_left _ hm

theorem tail (h : Safe vars loop (n :: behind)) : Safe (vars ++ n.opened) loop behind := by
  refine ⟨fun v => ?_, h.ends.2, fun m hm => h.clean m (List.mem_append_right _ hm)⟩
  simp only [List.mem_append]
  exact (h.sees v).2

theorem inside (h : Safe vars loop [n]) (hb : b ∈ n.bodies) :
    Safe (vars ++ n.headerVars) (loop || n.isLoop) b := by
  refine ⟨fun v => ?_, ?_, fun m hm => h.clean m ?_⟩
  · simp only [List.mem_append]
    exact (Node.sees_iff.1 (h.sees v).1).2.1 b hb
  · exact endsAll_of_ends h.ends.1 b hb
  · simp only [Node.nodesOf, List.append_nil, Node.nodes_eq]
    exact .tail _ (List.mem_flatMap.2 ⟨b, hb, hm⟩)

theorem touched (h : Safe vars loop (n :: behind)) : ∀ c ∈ n.touched, ∃ v ∈ vars, c = ⟨.var, v⟩ := by
  intro c hc
  have hn : n ∈ Node.nodesOf (n :: behind) := Node.subset_nodesOf _ (.head _)
  obtain ⟨v, hv, rfl⟩ := (h.clean n hn).touched hc
  exact ⟨v, (Node.sees_iff.1 (h.sees v).1).1 hv, rfl⟩

end Safe

theorem existing_cons (s : OpenScope) (st : Stack) : existing (s :: st) = s.live ++ existing st := List.flatMap_cons

theorem inLoop_cons (s : OpenScope) (st : Stack) : inLoop (s :: st) = (s.loop?.isSome || inLoop st) := List.any_cons

structure OpenScope.Fits (s : OpenScope) (outer : Stack) : Prop where
  todo : Safe (existing (s :: outer)) (inLoop (s :: outer)) s.todo
  loop : ∀ n, s.loop? = some n → Safe (existing outer) (inLoop outer) [n]
  test : ∀ b c, s.loop? = some (.repeatUntil b c) → ∀ v ∈ c.vars,
    v ∈ s.live ++ s.todo.flatMap Node.opened ++ existing outer

def Fits : Stack → Prop
  | [] => True
  | s :: outer => s.Fits outer ∧ Fits outer

theorem use_ok {cs : List Cell} (h : ∀ c ∈ cs, ∃ v ∈ existing st, c = ⟨.var, v⟩) : use st cs = .ok () := by
  unfold use
  induction cs with
  | nil => rfl
  | cons c cs ih =>
    obtain ⟨v, hv, rfl⟩ := h c (.head _)
    rw [List.forM_eq_forM, List.forM_cons, useCell, if_pos hv]
    exact ih fun d hd => h d (.tail _ hd)

theorem loop_scopeOf {m : Node} (h : (scopeOf n b).loop? = some m) : m = n := by
  unfold scopeOf at h
  cases hn : n.isLoop with
  | true => simpa [hn, eq_comm] using h
  | false => simp [hn] at h

theorem fits_scopeOf (hst : Fits st) (hn : Safe (existing st) (inLoop st) [n]) (hb : b ∈ n.bodies) :
    Fits (scopeOf n b :: st) := by
  have hloop : (scopeOf n b).loop?.isSome = n.isLoop := by
    unfold scopeOf
    cases n.isLoop <;> rfl
  refine ⟨⟨?_, fun m hm => ?_, fun x c hm v hv => ?_⟩, hst⟩
  · rw [existing_cons, inLoop_cons, hloop, Bool.or_comm]
    refine (hn.inside hb).mono fun v hv => ?_
    rw [List.mem_append] at hv ⊢
    exact hv.symm
  · obtain rfl := loop_scopeOf hm
    exact hn
  · obtain rfl := loop_scopeOf hm
    obtain rfl := List.mem_singleton.1 hb
    rw [List.mem_append, or_comm]
    simpa [scopeOf, Node.headerVars] using (hn.sees v).1.2 hv

theorem fits_leaveLoop (hst : Fits st) (hl : inLoop st = true) : ∃ st', leaveLoop st = .ok st' ∧ Fits st' := by
  induction st with
  | nil => cases hl
  | cons s outer ih =>
    rw [leaveLoop]
    rw [inLoop_cons] at hl
    cases hs : s.loop?.isSome with
    | true => exact ⟨outer, rfl, hst.2⟩
    | false =>
      rw [hs] at hl
      exact ih hst.2 hl

theorem fits_pushed (hst : Fits st) (hn : Safe (existing st) (inLoop st) [n]) (hb : b ∈ n.bodies) (holds : Bool) :
    Fits (if holds then scopeOf n b :: st else st) := by
  cases holds with
  | true => exact fits_scopeOf hst hn hb
  | false => exact hst

theorem fits_enter (hst : Fits st) (hn : Safe (existing st) (inLoop st) [n]) (holds : Bool) :
    ∃ st', enter holds n st = .ok st' ∧ Fits st' := by
  cases n with
  | stmt s =>
    refine ⟨_, rfl, ?_⟩
    split
    · trivial
    · exact hst
  | brk => exact fits_leaveLoop hst hn.ends.1.1
  | scope b => exact ⟨_, rfl, fits_scopeOf hst hn (.head _)⟩
  | repeatUntil b c => exact ⟨_, rfl, fits_scopeOf hst hn (.head _)⟩
  | ifElse c a b =>
    refine ⟨_, rfl, fits_scopeOf hst hn ?_⟩
    cases holds with
    | true => exact .head _
    | false => exact .tail _ (.head _)
  | _ => exact ⟨_, rfl, fits_pushed hst hn (.head _) holds⟩

theorem fits_again (hst : Fits outer) (hn : Safe (existing outer) (inLoop outer) [n])
    (htest : ∀ b c, n = .repeatUntil b c → ∀ v ∈ c.vars, v ∈ vars ++ existing outer) (holds : Bool) :
    ∃ st', again holds n vars outer = .ok st' ∧ Fits st' := by
  have hclean := hn.clean n (Node.subset_nodesOf _ (.head _))
  cases n with
  | repeatUntil b c =>
    -- The test still sees what the body that has just ended declared.
    have huse : use (⟨[], vars, some (.repeatUntil b c)⟩ :: outer) c.cells = .ok () := by
      apply use_ok
      intro d hd
      have hd : d ∈ [c].flatMap Expr.cells := List.mem_flatMap.2 ⟨c, .head _, hd⟩
      obtain ⟨v, hv, rfl⟩ := exists_var hd (hclean.cells d (List.mem_append_left _ hd))
      refine ⟨v, htest b c rfl v ?_, rfl⟩
      simpa using hv
    rw [again, huse]
    refine ⟨_, rfl, ?_⟩
    cases holds with
    | true => exact hst
    | false => exact fits_scopeOf hst hn (.head _)
  | whileDo c b =>
    have huse : use outer c.cells = .ok () := by
      apply use_ok
      intro d hd
      exact hn.touched d (List.mem_flatMap.2 ⟨c, .head _, hd⟩)
    rw [again, huse]
    exact ⟨_, rfl, fits_pushed hst hn (.head _) holds⟩
  | numericFor v x y z b => exact ⟨_, rfl, fits_pushed hst hn (.head _) holds⟩
  | genericFor vs es b => exact ⟨_, rfl, fits_pushed hst hn (.head _) holds⟩
  | _ => exact ⟨_, rfl, hst⟩

theorem Fits.step (hst : Fits st) (holds : Bool) : ∃ st', step holds st = .ok st' ∧ Fits st' := by
  cases st with
  | nil => exact ⟨[], rfl, trivial⟩
  | cons s outer =>
    obtain ⟨todo, vars, l⟩ := s
    obtain ⟨hs, houter⟩ := hst
    cases todo with
    | nil =>
      cases l with
      | none => exact ⟨outer, rfl, houter⟩
      | some n =>
        refine fits_again houter (hs.loop n rfl) (fun b c he v hv => ?_) holds
        have := hs.test b c (congrArg some he) v hv
        simpa using this
    | cons n behind =>
      have hst : Fits (⟨behind, vars ++ n.opened, l⟩ :: outer) := by
        refine ⟨⟨hs.todo.tail.mono fun v hv => ?_, hs.loop, fun b c he v hv => ?_⟩, houter⟩
        · simp only [existing_cons, List.mem_append] at hv ⊢
          exact or_right_comm.1 hv
        · have := hs.test b c he v hv
          simpa using this
      have hn : Safe (existing (⟨behind, vars ++ n.opened, l⟩ :: outer))
          (inLoop (⟨behind, vars ++ n.opened, l⟩ :: outer)) [n] := by
        refine hs.todo.single.mono fun v hv => ?_
        simp only [existing_cons, List.mem_append] at hv ⊢
        exact hv.imp_left .inl
      rw [Interpreter.step, use_ok hs.todo.touched]
      exact fits_enter hst hn holds

theorem Fits.run (hst : Fits st) (outcomes : List Bool) : ∃ st', run outcomes st = .ok st' ∧ Fits st' := by
  induction outcomes generalizing st with
  | nil => exact ⟨st, rfl, hst⟩
  | cons holds outcomes ih =>
    obtain ⟨st₁, h₁, hst₁⟩ := hst.step holds
    obtain ⟨st₂, h₂, hst₂⟩ := ih hst₁
    refine ⟨st₂, ?_, hst₂⟩
    rw [Interpreter.run, List.foldlM_cons, h₁]
    exact h₂

theorem fits_start {r : Routine} (h : r.Scoped)
    (hplaces : ∀ a, .stmt (.assign a) ∈ Node.nodesOf r.body → ∀ e ∈ a.targets, e.IsPlace) : Fits (start r) := by
  have hclean : ∀ n ∈ Node.nodesOf r.body, Clean n := by
    intro n hn
    refine ⟨fun c hc => (h.cells c (List.mem_flatMap.2 ⟨n, hn, hc⟩)).1, fun a ha => ?_⟩
    subst ha
    exact hplaces a hn
  have hexisting : existing (start r) = r.parameters := List.append_nil _
  have hsafe : Safe (existing (start r)) false r.body := by
    rw [hexisting]
    exact ⟨h.sees, h.ends, hclean⟩
  exact ⟨⟨hsafe, fun n hn => (by cases hn), fun b c hn => (by cases hn)⟩, trivial⟩

/-- An accepted function with places as targets runs without a fault, for any outcomes of its tests and any number of
turns of its loops: every variable it uses exists, no slot is left, and no `break` stands outside a loop. -/
theorem run_ok {r : Routine} (h : r.violation? = none)
    (hplaces : ∀ a, .stmt (.assign a) ∈ Node.nodesOf r.body → ∀ e ∈ a.targets, e.IsPlace) (outcomes : List Bool) :
    ∃ st, run outcomes (start r) = .ok st := by
  obtain ⟨st, hst, -⟩ := (fits_start (Routine.violation?_eq_none.1 h) hplaces).run outcomes
  exact ⟨st, hst⟩

def sampled : Routine :=
  { id := 0
    parameters := [0]
    variadic := false
    body := [
      .numericFor 1 (.var 0) (.global "n") (.global "s") [
        .repeatUntil [
          .ifThen (.global "c") [.brk],
          .stmt (.assign ⟨[.var 2], [.call (.var 0) [.var 1]], true, 0⟩),
          .stmt (.assign ⟨[.index (.var 0) (.var 1)], [.var 2], false, 0⟩)] (.var 2)],
      .stmt (.ret [.var 0] 0)]
    locals := ⟨[⟨0, "f", .parameter⟩, ⟨1, "i", .loop⟩, ⟨2, "x", .plain⟩]⟩
    notes := []
    children := [] }

theorem run_ok_sampled : sampled.violation? = none ∧
    (∀ a, .stmt (.assign a) ∈ Node.nodesOf sampled.body → ∀ e ∈ a.targets, e.IsPlace) ∧
    ∃ st, run [true, true, false, true, true, false, true] (start sampled) = .ok st := by
  have h : sampled.violation? = none := rfl
  have hplaces : ∀ a, .stmt (.assign a) ∈ Node.nodesOf sampled.body → ∀ e ∈ a.targets, e.IsPlace := by
    simp [sampled, Expr.IsPlace]
  exact ⟨h, hplaces, run_ok h hplaces _⟩

example : run [true, true, true, true]
    [⟨[.ifThen (.global "c") [.stmt (.declare [0])], .stmt (.call (.var 0) [] 0)], [], none⟩] =
    .error (.missing 0) := rfl

end Interpreter

end LuaLift
