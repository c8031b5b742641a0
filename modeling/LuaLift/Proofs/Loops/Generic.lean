import LuaLift.Proofs.Loops.Hidden

/-!
A recognized loop over an iterator as a `for`. The loop of the blocks keeps generator, state and control
in hidden cells; the `for` keeps them aside and takes the first value of each call as the next control.
Both call with the same values and enter the same blocks with the same cells.
-/

namespace LuaLift

open Machine

variable {V W : Type}

namespace Expr

theorem nilOperand?_eq_some {a b : Expr} {c : Cell} (h : nilTest?.nilOperand? a b = some c) :
    b.isNil = true ∧ a.cell? = some c ∨ a.isNil = true ∧ b.cell? = some c := by
  unfold nilTest?.nilOperand? at h
  split at h
  · next hb => exact .inl ⟨hb, h⟩
  · split at h
    · next ha => exact .inr ⟨ha, h⟩
    · cases h

end Expr

namespace GenericLoop

def Advance.hidden (a : Advance) : List Cell := [a.generator, a.state, a.control]

theorem map_of_mapM_cell? {ts : List Expr} {cs : List Cell} (h : ts.mapM Expr.cell? = some cs) :
    ts.map Expr.cell? = cs.map some := by
  induction ts generalizing cs with
  | nil =>
    cases h
    rfl
  | cons t ts ih =>
    simp only [List.mapM_cons, Option.pure_def, Option.bind_eq_bind, Option.bind_eq_some_iff] at h
    obtain ⟨c, hc, cs', hcs, h⟩ := h
    cases h
    simp [hc, ih hcs]

theorem advance?_eq_some {body : List Stmt} {a : Advance} (h : advance? body = some a) :
    ∃ call : Assignment, body = [.assign call] ∧ call.targets.map Expr.cell? = a.results.map some ∧
      ∃ f s c, call.values = [.call f [s, c]] ∧ f.cell? = some a.generator ∧ s.cell? = some a.state ∧
        c.cell? = some a.control := by
  unfold advance? at h
  split at h
  · next targets g s c d line =>
    simp only [Option.bind_eq_bind, Option.bind_eq_some_iff] at h
    obtain ⟨g', hg, s', hs, c', hc, results, hresults, h⟩ := h
    cases h
    exact ⟨_, rfl, map_of_mapM_cell? hresults, g, s, c, rfl, hg, hs, hc⟩
  · cases h

theorem Advance.slotOf_results {slotOf : SlotOf} {a : Advance} (h : a.adjoins slotOf = true) :
    ∃ s, slotOf a.generator = some s ∧ slotOf a.state = some (s + 1) ∧ slotOf a.control = some (s + 2) ∧
      ∀ i (hi : i < a.results.length), slotOf a.results[i] = some (s + (i + 3)) := by
  simp only [adjoins, Bool.and_eq_true, List.all_eq_true] at h
  obtain ⟨⟨hstate, hcontrol⟩, hresults⟩ := h
  obtain ⟨s, hs, hs₁⟩ := adjacent_eq_true hstate
  obtain ⟨s', hs', hs₂⟩ := adjacent_eq_true hcontrol
  obtain rfl : s = s' := Option.some.inj (hs.symm.trans hs')
  refine ⟨s, hs, hs₁, hs₂, fun i hi => ?_⟩
  obtain ⟨t, ht, hi'⟩ := adjacent_eq_true (hresults (a.results[i], i) (by simp [List.mem_zipIdx_iff_getElem?, hi]))
  obtain rfl : s = t := Option.some.inj (hs.symm.trans ht)
  exact hi'

structure Driven (slotOf : SlotOf) (p : Proto) (f : Flow) (l : NaturalLoop) (a : Advance) (v : Cell)
    (g : GenericLoop) : Prop where
  latches : l.latches = [g.latch]
  again : (p.jump g.latch).targets = [l.header]
  header : advance? (p.body l.header) = some a
  head : g.header = l.header
  first : a.results.head? = some v
  copy : ∃ s e, (p.body g.latch).getLast? = some s ∧ s.singleCell? = some (a.control, e) ∧ e.cell? = some v
  test : ∃ t stays, l.exitTest? (p.jump l.header) = some ⟨g.bodyEntry, g.follow, stays⟩ ∧
    (p.jump l.header).condition? = some t ∧ t.nilTest? = some (v, stays)
  adjoins : a.adjoins slotOf = true
  results : g.variableCells = a.results
  preheader : l.preheader? p f = some g.preheader
  setup : initializers? (p.body g.preheader) a.hidden = some ⟨g.iterators, g.setup⟩
  reads : ∀ x ∈ a.hidden, p.readCount x = 1

theorem iteration?_eq_some {slotOf : SlotOf} {p : Proto} {l : NaturalLoop} {i : Iteration}
    (h : iteration? slotOf p l = some i) : l.latches = [i.latch] ∧ (p.jump i.latch).targets = [l.header] ∧
      advance? (p.body l.header) = some i.step ∧ i.step.adjoins slotOf = true ∧
      ∃ v, i.step.results.head? = some v ∧
        (∃ s e, (p.body i.latch).getLast? = some s ∧ s.singleCell? = some (i.step.control, e) ∧ e.cell? = some v) ∧
        ∃ t, (p.jump l.header).condition? = some t ∧ t.nilTest? = some (v, i.holdsForValue) := by
  simp only [iteration?, Option.bind_eq_bind, Option.bind_eq_some_iff] at h
  obtain ⟨latch, hlatch, block, hblock, _, hagain, ⟨control, value⟩, ⟨s, hs, hsingle⟩, step, hstep,
    ⟨tested, holds⟩, ⟨t, ht, htest⟩, _, hcopy, _, hadjoins, h⟩ := h
  cases h
  have hbody : p.body latch = block.body := Proto.body_of_getElem? hblock
  have hjump : p.jump latch = block.jump := Proto.jump_of_getElem? hblock
  have hguard := of_guard hcopy
  simp only [Bool.and_eq_true, decide_eq_true_eq] at hguard
  obtain ⟨⟨rfl, hvalue⟩, hfirst⟩ := hguard
  simp only [hbody, hjump]
  refine ⟨?_, of_guard hagain, hstep, of_guard hadjoins, tested, hfirst, ⟨s, value, hs, hsingle, hvalue⟩, t, ht, htest⟩
  unfold NaturalLoop.singleLatch? at hlatch
  split at hlatch
  · next hlatches =>
    cases hlatch
    exact hlatches
  · cases hlatch

theorem driven_of_recognize {slotOf : SlotOf} {p : Proto} {f : Flow} {l : NaturalLoop} {g : GenericLoop}
    (h : recognize slotOf p f l = .full g) : ∃ i v, iteration? slotOf p l = some i ∧
      Driven slotOf p f l i.step v g := by
  unfold recognize at h
  obtain ⟨i, hi, h⟩ := Recognition.orNone_eq_full h
  obtain ⟨exit, hexit, h⟩ := Recognition.orNear_eq_full h
  obtain ⟨hstays, h⟩ := Recognition.provided_eq_full h
  obtain ⟨b, hb, h⟩ := Recognition.orNear_eq_full h
  obtain ⟨init, hinit, h⟩ := Recognition.orNear_eq_full h
  obtain ⟨hreads, h⟩ := Recognition.provided_eq_full h
  cases h
  obtain ⟨hlatches, hagain, hheader, hadjoins, v, hfirst, hcopy, t, ht, htest⟩ := iteration?_eq_some hi
  simp only [Bool.and_eq_true, beq_iff_eq] at hreads hstays
  refine ⟨i, v, hi, hlatches, hagain, hheader, rfl, hfirst, hcopy, ⟨t, exit.staysOnTrue, hexit, ht, ?_⟩, hadjoins, rfl,
    hb, hinit, ?_⟩
  · rw [hstays]
    exact htest
  · simp [Advance.hidden, hreads]

def closing (g : GenericLoop) (p : Proto) (b : BlockId) : List Stmt :=
  if b = g.latch then (p.body b).drop ((p.body b).length - 1)
  else if b = g.preheader then (p.body b).drop ((p.body b).length - g.setup)
  else []

@[simp] theorem jump_strip (g : GenericLoop) (p : Proto) (b : BlockId) : (g.strip p).jump b = p.jump b := by
  simp [strip]

namespace Driven

variable {slotOf : SlotOf} {p : Proto} {f : Flow} {l : NaturalLoop} {a : Advance} {v : Cell} {g : GenericLoop}
  (h : Driven slotOf p f l a v g)
include h

theorem preheader_notMem : g.preheader ∉ l.body := (NaturalLoop.preheader?_eq_some h.preheader).1

theorem bodyEntry_mem : g.bodyEntry ∈ l.body := by
  obtain ⟨t, stays, hexit, -⟩ := h.test
  exact (NaturalLoop.exitTest?_eq_some hexit).1

theorem follow_notMem : g.follow ∉ l.body := by
  obtain ⟨t, stays, hexit, -⟩ := h.test
  exact (NaturalLoop.exitTest?_eq_some hexit).2.1

theorem latch_ne_header : g.latch ≠ l.header := by
  obtain ⟨s, e, hs, hsingle, he⟩ := h.copy
  obtain ⟨call, hbody, -, x, y, z, hvalues, -⟩ := advance?_eq_some h.header
  intro heq
  rw [heq, hbody] at hs
  cases hs
  obtain ⟨b, t, hb, -, -, hv⟩ := Stmt.singleCell?_eq_some hsingle
  cases hb
  rw [hvalues] at hv
  cases hv
  cases he

theorem generator_ne : a.generator ∉ [a.state, a.control] := by
  obtain ⟨s, hs, ht, hu, -⟩ := Advance.slotOf_results h.adjoins
  simp only [List.mem_cons, List.not_mem_nil, or_false, not_or]
  refine ⟨?_, ?_⟩ <;> rintro heq <;> simp_all

theorem state_ne_control : a.state ≠ a.control := by
  obtain ⟨s, hs, ht, hu, -⟩ := Advance.slotOf_results h.adjoins
  rintro heq
  simp_all

theorem result_notMem {x : Cell} (hx : x ∈ a.results) : x ∉ a.hidden := by
  obtain ⟨s, hs, ht, hu, hresults⟩ := Advance.slotOf_results h.adjoins
  obtain ⟨i, hi, rfl⟩ := List.getElem_of_mem hx
  have := hresults i hi
  simp only [Advance.hidden, List.mem_cons, List.not_mem_nil, or_false, not_or]
  refine ⟨?_, ?_, ?_⟩ <;> rintro heq <;> simp_all

theorem nodup_results : a.results.Nodup := by
  obtain ⟨s, -, -, -, hresults⟩ := Advance.slotOf_results h.adjoins
  rw [List.nodup_iff_injective_getElem]
  rintro ⟨i, hi⟩ ⟨j, hj⟩ hij
  have hslot := (hresults i hi).symm.trans ((congrArg slotOf hij).trans (hresults j hj))
  rw [Option.some.injEq, Nat.add_left_cancel_iff, Nat.add_right_cancel_iff] at hslot
  exact Fin.ext hslot

theorem first_mem : v ∈ a.results := List.mem_of_mem_head? h.first

section Stripped

variable (hlatch : g.latch ∈ l.body)
include hlatch

theorem body_eq {b : BlockId} (hb : b ≠ l.header) : p.body b = (g.strip p).body b ++ g.closing p b := by
  have hpl : g.preheader ≠ g.latch := fun heq => h.preheader_notMem (heq ▸ hlatch)
  simp only [strip, Proto.body_dropLast, Proto.body_clear, closing, h.head, eq_comm (a := b)]
  rw [if_neg (Ne.symm hb)]
  by_cases hl : g.latch = b
  · subst hl
    simp [hpl]
  · by_cases hp : g.preheader = b
    · simp [hl, hp]
    · simp [hl, hp]

variable (hheader : l.header ∈ l.body)
include hheader

theorem readCount_strip (x : Cell) : (g.strip p).readCount x + total (·.readCount x) (p.body l.header) +
    total (·.readCount x) (g.closing p g.latch) + total (·.readCount x) (g.closing p g.preheader) =
      p.readCount x := by
  have hpl : g.preheader ≠ g.latch := fun heq => h.preheader_notMem (heq ▸ hlatch)
  have hph : l.header ≠ g.preheader := fun heq => h.preheader_notMem (heq ▸ hheader)
  have h₁ := p.readCount_dropLast x g.latch 1
  have h₂ := (p.dropLast g.latch 1).readCount_clear x l.header
  have h₃ := ((p.dropLast g.latch 1).clear l.header).readCount_dropLast x g.preheader g.setup
  rw [Proto.body_dropLast, if_neg h.latch_ne_header] at h₂
  rw [Proto.body_clear, if_neg hph, Proto.body_dropLast, if_neg (Ne.symm hpl)] at h₃
  simp only [strip, closing, h.head, if_true, if_neg hpl]
  omega

omit hlatch hheader in
theorem one_le_readCount_header {x : Cell} (hx : x ∈ a.hidden) : 1 ≤ total (·.readCount x) (p.body l.header) := by
  obtain ⟨call, hbody, -, f', s, c, hvalues, hf, hs, hc⟩ := advance?_eq_some h.header
  have hcall : 1 ≤ (Expr.call f' [s, c]).count x := by
    rw [Expr.count_call_pair]
    simp only [Advance.hidden, List.mem_cons, List.not_mem_nil, or_false] at hx
    obtain rfl | rfl | rfl := hx
    · have := Expr.count_of_cell? hf
      omega
    · have := Expr.count_of_cell? hs
      omega
    · have := Expr.count_of_cell? hc
      omega
  have hmem : Expr.call f' [s, c] ∈ (Stmt.assign call).operands := List.mem_append_right _ (by simp [hvalues])
  have hle : (Expr.call f' [s, c]).count x ≤ (Stmt.assign call).readCount x :=
    le_total_of_mem (f := (Expr.count x ·)) hmem
  simp only [hbody, total]
  omega

theorem unread {x : Cell} (hx : x ∈ a.hidden) (b : BlockId) :
    (∀ s ∈ (g.strip p).body b, s.readCount x = 0) ∧ ∀ t ∈ (p.jump b).condition?, t.count x = 0 := by
  have hcount := h.readCount_strip hlatch hheader x
  have hcall := h.one_le_readCount_header hx
  have hone := h.reads x hx
  have hreads := (g.strip p).readsAt_le x b
  simp only [Proto.readsAt, jump_strip] at hreads
  refine ⟨fun s hs => ?_, fun t ht => ?_⟩
  · have := le_total_of_mem (f := (·.readCount x)) hs
    omega
  · rw [Option.mem_def] at ht
    simp only [ht, Option.toList_some, total] at hreads
    omega

theorem unread_setup {x : Cell} (hx : x ∈ a.hidden) : ∀ s ∈ g.closing p g.preheader, s.readCount x = 0 := by
  intro s hs
  have hcount := h.readCount_strip hlatch hheader x
  have hcall := h.one_le_readCount_header hx
  have hone := h.reads x hx
  have := le_total_of_mem (f := (·.readCount x)) hs
  omega

end Stripped

end Driven

end GenericLoop

structure Triple (V : Type) where
  generator : V
  state : V
  control : V

namespace Triple

def values (k : Triple V) : List V := [k.generator, k.state, k.control]

end Triple

structure Iterators (V W : Type) where
  nil : V
  isNil : V → Bool
  adjusted : List Expr → Nat → Env V W → List V × Env V W
  invoke : Triple V → Nat → Env V W → List V × Env V W

namespace Iterators

/-- An assignment takes the values of its list, a comparison with nil has no effect, a generator goes on
past hidden cells, and the first variable changes by assignments only. -/
structure Lawful (J : Iterators V W) (I : Interpretation V W) (hidden : List Cell) (v : Cell) : Prop where
  length : ∀ as n e, (J.adjusted as n e).1.length = n
  each : ∀ as e, J.adjusted as as.length e = I.evalAll as e
  assign : ∀ {a : Assignment} {cs : List Cell} {e : Env V W}, a.targets.map Expr.cell? = cs.map some →
    I.meaning.run (.assign a) e =
      (J.adjusted a.values cs.length e).2.setAll cs (J.adjusted a.values cs.length e).1
  call : ∀ {f x y : Expr} {g s c : Cell} {n : Nat} {e : Env V W}, f.cell? = some g → x.cell? = some s →
    y.cell? = some c → J.adjusted [.call f [x, y]] n e = J.invoke ⟨e.cell g, e.cell s, e.cell c⟩ n e
  invoke_set : ∀ {c : Cell}, c ∈ hidden → ∀ k n (e : Env V W) (x : V),
    J.invoke k n (e.set c x) = ((J.invoke k n e).1, (J.invoke k n e).2.set c x)
  nil_right : ∀ {a b : Expr} {c : Cell} {e : Env V W}, a.cell? = some c → b.isNil = true →
    I.meaning.test (.binary .eq a b) e = (J.isNil (e.cell c), e)
  nil_left : ∀ {a b : Expr} {c : Cell} {e : Env V W}, a.isNil = true → b.cell? = some c →
    I.meaning.test (.binary .eq a b) e = (J.isNil (e.cell c), e)
  run_keeps : ∀ {s : Stmt} (e : Env V W), v ∉ s.writtenCells → (I.meaning.run s e).cell v = e.cell v
  test_keeps : ∀ (a : Expr) (e : Env V W), (I.meaning.test a e).2.cell v = e.cell v

namespace Lawful

variable {J : Iterators V W} {I : Interpretation V W} {hidden : List Cell} {v : Cell} (hJ : J.Lawful I hidden v)
include hJ

theorem invoke_setAll {cs : List Cell} (hcs : ∀ c ∈ cs, c ∈ hidden) (k : Triple V) (n : Nat) (e : Env V W)
    (xs : List V) : J.invoke k n (e.setAll cs xs) = ((J.invoke k n e).1, (J.invoke k n e).2.setAll cs xs) := by
  induction cs generalizing e xs with
  | nil => rfl
  | cons c cs ih =>
    cases xs with
    | nil => rfl
    | cons x xs =>
      rw [Env.setAll, ih fun d hd => hcs d (.tail _ hd), hJ.invoke_set (hcs c (.head _)), Env.setAll]

theorem runAll_keeps {l : List Stmt} (hl : ∀ s ∈ l, v ∉ s.writtenCells) (e : Env V W) :
    (I.meaning.runAll l e).cell v = e.cell v := by
  induction l generalizing e with
  | nil => rfl
  | cons s l ih => exact (ih (fun t ht => hl t (.tail _ ht)) _).trans (hJ.run_keeps e (hl s (.head _)))

theorem decide_keeps (a : Expr) (e : Env V W) : (I.meaning.decide a e).state.cell v = e.cell v := by
  fun_induction Meaning.decide I.meaning a e with
  | case1 k => rfl
  | case2 a e ih => exact ih
  | case3 a b e => exact hJ.test_keeps _ e
  | case4 a b e h ih ih' => exact ih'.trans ih
  | case5 a b e h ih => exact ih
  | case6 a b e h ih => exact ih
  | case7 a b e h ih ih' => exact ih'.trans ih
  | case8 a e h₁ h₂ h₃ h₄ h₅ => exact hJ.test_keeps _ e

theorem turn_keeps (p : Proto) (b : BlockId) (e : Env V W) : (p.turn I b e).2.cell v = e.cell v := by
  rw [Proto.turn]
  cases p.jump b with
  | branch t x y => exact hJ.decide_keeps t e
  | always t | leave => rfl

theorem decide_nilTest {c : Cell} {e : Env V W} : (a : Expr) → {stays : Bool} → a.nilTest? = some (c, stays) →
    (I.meaning.decide a e).state = e ∧ (I.meaning.decide a e).holds = (J.isNil (e.cell c) != stays)
  | .unary .not a, stays, h => by
    rw [Expr.nilTest?, Option.map_eq_some_iff] at h
    obtain ⟨⟨d, s⟩, ha, h⟩ := h
    cases h
    obtain ⟨hstate, hholds⟩ := decide_nilTest a ha
    rw [Meaning.decide, Verdict.negated_state, Verdict.negated_holds, hholds]
    exact ⟨hstate, by simp⟩
  | .binary .eq a b, stays, h => by
    rw [Expr.nilTest?, Option.map_eq_some_iff] at h
    obtain ⟨d, hd, h⟩ := h
    cases h
    obtain ⟨hb, ha⟩ | ⟨ha, hb⟩ := Expr.nilOperand?_eq_some hd
    · simp [Meaning.decide, Meaning.elementary, hJ.nil_right ha hb]
    · simp [Meaning.decide, Meaning.elementary, hJ.nil_left ha hb]
  | .binary .ne a b, stays, h => by
    rw [Expr.nilTest?, Option.map_eq_some_iff] at h
    obtain ⟨d, hd, h⟩ := h
    cases h
    obtain ⟨hb, ha⟩ | ⟨ha, hb⟩ := Expr.nilOperand?_eq_some hd
    · simp [Meaning.decide, Meaning.elementary, hJ.nil_right ha hb]
    · simp [Meaning.decide, Meaning.elementary, hJ.nil_left ha hb]

end Lawful

end Iterators

inductive Scene (V W : Type) where
  | enters (b : BlockId) (met : (Cell → Option V) × W)
  | calls (k : Triple V)
  | sight (s : Sight V W)

namespace GenericLoop

def enter (I : Interpretation V W) (J : Iterators V W) (g : GenericLoop) (p : Proto) (e : Env V W) :
    Env V W × Triple V :=
  let (xs, e) := J.adjusted g.iterators 3 (I.meaning.runAll (p.body g.preheader) e)
  (e, ⟨xs.getD 0 J.nil, xs.getD 1 J.nil, xs.getD 2 J.nil⟩)

def Advance.machine (I : Interpretation V W) (l : NaturalLoop) (p : Proto) (a : Advance) :
    Machine (Scene V W) (Option BlockId × Env V W) where
  next
    | (some b, e) =>
      if b ∈ l.body then
        let call := if b = l.header then [.calls ⟨e.cell a.generator, e.cell a.state, e.cell a.control⟩] else []
        some (.enters b (e.apart a.hidden) :: call ++ (I.sights a.hidden (p.body b) e).map .sight,
          p.turn I b (I.meaning.runAll (p.body b) e))
      else none
    | (none, _) => none

def machine (I : Interpretation V W) (J : Iterators V W) (hidden : List Cell) (l : NaturalLoop) (g : GenericLoop)
    (p : Proto) : Machine (Scene V W) (Option BlockId × Env V W × Triple V) where
  next
    | (some b, e, k) =>
      if b = l.header then
        let (xs, e') := J.invoke k g.variableCells.length e
        let first := xs.headD J.nil
        some ([.enters b (e.apart hidden), .calls k],
          if J.isNil first then (some g.follow, e', k)
          else (some g.bodyEntry, e'.setAll g.variableCells xs, { k with control := first }))
      else if b ∈ l.body then
        let (t, e') := p.turn I b (I.meaning.runAll (p.body b) e)
        some (.enters b (e.apart hidden) :: (I.sights hidden (p.body b) e).map .sight, t, e', k)
      else none
    | (none, _) => none

/-- What a recognized loop has to fulfil besides: no statement that stays writes a hidden cell or the first
variable. -/
def Undisturbed (g : GenericLoop) (a : Advance) (v : Cell) (l : NaturalLoop) (p : Proto) : Prop :=
  ∀ b ∈ l.body, ∀ s ∈ (g.strip p).body b, ∀ x ∈ v :: a.hidden, x ∉ s.writtenCells

namespace Driven

variable {slotOf : SlotOf} {p : Proto} {f : Flow} {l : NaturalLoop} {a : Advance} {v : Cell} {g : GenericLoop}
  (h : Driven slotOf p f l a v g) {I : Interpretation V W} {J : Iterators V W}
include h

theorem cells_hidden (e : Env V W) (k : Triple V) :
    Triple.mk ((e.setAll a.hidden k.values).cell a.generator) ((e.setAll a.hidden k.values).cell a.state)
      ((e.setAll a.hidden k.values).cell a.control) = k := by
  have hgenerator := h.generator_ne
  simp only [List.mem_cons, List.not_mem_nil, or_false, not_or] at hgenerator
  simp [Advance.hidden, Triple.values, Env.setAll, Env.cell_set_of_ne hgenerator.1, Env.cell_set_of_ne hgenerator.2,
    Env.cell_set_of_ne h.state_ne_control]

theorem not_mentions (hlatch : g.latch ∈ l.body) (hheader : l.header ∈ l.body) (hg : g.Undisturbed a v l p)
    {b : BlockId} (hb : b ∈ l.body) : ∀ s ∈ (g.strip p).body b, ∀ x ∈ a.hidden, s.mentions x = false :=
  fun s hs x hx => Stmt.not_mentions.2 ⟨(h.unread hlatch hheader hx b).1 s hs, hg b hb s hs x (.tail _ hx)⟩

theorem mentions_closing {b : BlockId} (hb : b ∈ l.body) :
    ∀ s ∈ g.closing p b, ∃ x ∈ a.hidden, s.mentions x = true := by
  have hbp : b ≠ g.preheader := fun heq => h.preheader_notMem (heq ▸ hb)
  intro s hs
  by_cases hbl : b = g.latch
  · subst hbl
    obtain ⟨t, e, ht, hsingle, he⟩ := h.copy
    obtain ⟨rest, hbody⟩ := List.getLast?_eq_some_iff.1 ht
    obtain rfl : s = t := by simpa [closing, hbody] using hs
    obtain ⟨c, x, rfl, htargets, hx, -⟩ := Stmt.singleCell?_eq_some hsingle
    exact ⟨a.control, by simp [Advance.hidden], by simp [Stmt.mentions, Stmt.writtenCells, htargets, hx]⟩
  · simp [closing, hbl, hbp] at hs

theorem mentions_header : ∀ s ∈ p.body l.header, ∃ x ∈ a.hidden, s.mentions x = true := by
  intro s hs
  have hgenerator : a.generator ∈ a.hidden := by simp [Advance.hidden]
  have hreads := h.one_le_readCount_header hgenerator
  obtain ⟨call, hbody, -⟩ := advance?_eq_some h.header
  rw [hbody, List.mem_singleton] at hs
  subst hs
  simp only [hbody, total, Nat.add_zero] at hreads
  exact ⟨a.generator, hgenerator, by simp [Stmt.mentions, Nat.pos_iff_ne_zero, Nat.one_le_iff_ne_zero.1 hreads]⟩

theorem runAll_closing (hI : I.Lawful a.hidden) {b : BlockId} (hb : b ∈ l.body) {k : Triple V} {e : Env V W} (x : V)
    (hv : e.cell v = k.control) : I.meaning.runAll (g.closing p b) (e.setAll a.hidden { k with control := x }.values) =
      e.setAll a.hidden { k with control := if b = g.latch then k.control else x }.values := by
  have hbp : b ≠ g.preheader := fun heq => h.preheader_notMem (heq ▸ hb)
  by_cases hbl : b = g.latch
  · subst hbl
    obtain ⟨s, t, ht, hsingle, hread⟩ := h.copy
    obtain ⟨rest, hbody⟩ := List.getLast?_eq_some_iff.1 ht
    have hclosing : g.closing p g.latch = [s] := by simp [closing, hbody]
    have hcell : (e.setAll a.hidden { k with control := x }.values).cell v = k.control := by
      rw [Env.cell_setAll_of_notMem (h.result_notMem h.first_mem), hv]
    rw [hclosing, if_pos rfl]
    simp only [Meaning.runAll, List.foldl_cons, List.foldl_nil, hI.run_single hsingle, hI.read hread, hcell]
    simp [Advance.hidden, Triple.values, Env.setAll]
  · rw [closing, if_neg hbl, if_neg hbp, if_neg hbl]
    rfl

section Calls

variable (hJ : J.Lawful I a.hidden v)
include hJ

theorem runAll_preheader (hI : I.Lawful a.hidden) (hlatch : g.latch ∈ l.body) (hheader : l.header ∈ l.body) (e : Env V W) :
    I.meaning.runAll (p.body g.preheader) e =
      (g.enter I J (g.strip p) e).1.setAll a.hidden (g.enter I J (g.strip p) e).2.values := by
  have hpl : g.preheader ≠ g.latch := fun heq => h.preheader_notMem (heq ▸ hlatch)
  have hph : g.preheader ≠ l.header := fun heq => h.preheader_notMem (heq ▸ hheader)
  have hclosing : g.closing p g.preheader =
      (p.body g.preheader).drop ((p.body g.preheader).length - g.setup) := by
    rw [closing, if_neg hpl, if_pos rfl]
  have hread : ∀ s ∈ g.closing p g.preheader, ∀ x ∈ a.hidden, s.readCount x = 0 :=
    fun s hs x hx => h.unread_setup hlatch hheader hx s hs
  have hsetup (e : Env V W) : I.meaning.runAll (g.closing p g.preheader) e =
      (J.adjusted g.iterators 3 e).2.setAll a.hidden (J.adjusted g.iterators 3 e).1 := by
    rcases initializers?_eq_some h.setup with ⟨b, hb, htargets, hvalues⟩ | ⟨hlen, hsingle⟩
    · simp only at hb hvalues
      rw [hclosing, hb, ← hvalues]
      exact hJ.assign htargets
    · rw [hclosing] at hread ⊢
      have hthree : g.iterators.length = 3 := length_of_singleInitializers? hsingle hlen
      rw [(hI.runAll_initializers hsingle hlen hread (fun _ hc => hc) e).1, ← hJ.each, hthree]
  rw [h.body_eq hlatch hph, Meaning.runAll_append, hsetup]
  have hthree := hJ.length g.iterators 3 (I.meaning.runAll ((g.strip p).body g.preheader) e)
  obtain ⟨x, y, z, hxs⟩ := List.length_eq_three.1 hthree
  simp [enter, Triple.values, hxs]

theorem runAll_header (e : Env V W) (k : Triple V) :
    I.meaning.runAll (p.body l.header) (e.setAll a.hidden k.values) =
      ((J.invoke k g.variableCells.length e).2.setAll g.variableCells
        (J.invoke k g.variableCells.length e).1).setAll a.hidden k.values := by
  obtain ⟨call, hbody, htargets, f', s, c, hvalues, hf, hs, hc⟩ := advance?_eq_some h.header
  have hcells : Triple.mk ((e.setAll a.hidden k.values).cell a.generator) ((e.setAll a.hidden k.values).cell a.state)
      ((e.setAll a.hidden k.values).cell a.control) = k := h.cells_hidden e k
  have hdisjoint : ∀ x ∈ a.hidden, x ∉ a.results := fun x hx hr => h.result_notMem hr hx
  rw [h.results, hbody, Meaning.runAll, List.foldl_cons, List.foldl_nil, hJ.assign htargets, hvalues,
    hJ.call hf hs hc, hcells, hJ.invoke_setAll fun _ hx => hx]
  exact Env.setAll_comm hdisjoint _ _

theorem length_invoke (e : Env V W) (k : Triple V) :
    (J.invoke k g.variableCells.length e).1.length = g.variableCells.length := by
  obtain ⟨call, -, -, f', s, c, -, hf, hs, hc⟩ := advance?_eq_some h.header
  have hlength := hJ.length [.call f' [s, c]] g.variableCells.length (e.setAll a.hidden k.values)
  rw [hJ.call hf hs hc, h.cells_hidden, hJ.invoke_setAll fun _ hx => hx] at hlength
  exact hlength

theorem cell_first (e : Env V W) (k : Triple V) :
    ((J.invoke k g.variableCells.length e).2.setAll g.variableCells (J.invoke k g.variableCells.length e).1).cell v =
      (J.invoke k g.variableCells.length e).1.headD J.nil := by
  have hlength := h.length_invoke hJ e k
  obtain ⟨rest, hrest⟩ := List.head?_eq_some_iff.1 h.first
  have hnodup := h.nodup_results
  rw [hrest, List.nodup_cons] at hnodup
  generalize J.invoke k g.variableCells.length e = r at hlength ⊢
  rw [h.results, hrest] at hlength ⊢
  obtain ⟨x, xs, hxs⟩ := List.exists_cons_of_length_eq_add_one hlength
  rw [hxs, Env.setAll, Env.cell_setAll_of_notMem hnodup.1, Env.cell_set_self, List.headD_cons]

theorem turn_header (e : Env V W) (k : Triple V) :
    p.turn I l.header (e.setAll a.hidden k.values) =
      (some (if J.isNil (e.cell v) then g.follow else g.bodyEntry), e.setAll a.hidden k.values) := by
  obtain ⟨t, stays, hexit, ht, htest⟩ := h.test
  obtain ⟨-, -, t', ht', hjump⟩ := NaturalLoop.exitTest?_eq_some hexit
  obtain rfl : t' = t := Option.some.inj (ht'.symm.trans ht)
  obtain ⟨hstate, hholds⟩ := hJ.decide_nilTest (e := e.setAll a.hidden k.values) t' htest
  rw [Env.cell_setAll_of_notMem (h.result_notMem h.first_mem)] at hholds
  rw [Proto.turn, hjump]
  cases stays <;> simp [Jump.follow, hstate, hholds]
  cases J.isNil (e.cell v) <;> rfl

end Calls

end Driven

/-- Both machines stand at the same block. At the header the hidden cells hold what the `for` keeps aside;
behind it the control is yet to come, and the first variable holds it. -/
inductive InStep (a : Advance) (v : Cell) (l : NaturalLoop) :
    Option BlockId × Env V W → Option BlockId × Env V W × Triple V → Prop
  | header (e : Env V W) (k : Triple V) :
      InStep a v l (some l.header, e.setAll a.hidden k.values) (some l.header, e, k)
  | body {b : BlockId} {e : Env V W} {k : Triple V} (x : V) (hb : b ∈ l.body) (hne : b ≠ l.header)
      (hv : e.cell v = k.control) :
      InStep a v l (some b, e.setAll a.hidden { k with control := x }.values) (some b, e, k)
  | outside {t : Option BlockId} {e e' : Env V W} {k : Triple V} (ht : ∀ b ∈ t, b ∉ l.body)
      (he : e.apart (a.hidden ++ a.results) = e'.apart (a.hidden ++ a.results)) :
      InStep a v l (t, e) (t, e', k)

namespace Driven

variable {slotOf : SlotOf} {p : Proto} {f : Flow} {l : NaturalLoop} {a : Advance} {v : Cell} {g : GenericLoop}
  {I : Interpretation V W} {J : Iterators V W} (h : Driven slotOf p f l a v g) (hf : f.Rooted) (hl : f.IsLoop l)
  (hsucc : ∀ b, f.successors b = (p.jump b).targets) (hg : g.Undisturbed a v l p) (hI : I.Lawful a.hidden)
  (hJ : J.Lawful I a.hidden v)
include h hf hl

theorem latch_mem : g.latch ∈ l.body := hl.latch_mem hf (hl.mem_latches.1 (by simp [h.latches]))

include hsucc in
theorem bodyEntry_ne_header : g.bodyEntry ≠ l.header := by
  intro heq
  obtain ⟨t, stays, hexit, -⟩ := h.test
  obtain ⟨-, -, c, -, hjump⟩ := NaturalLoop.exitTest?_eq_some hexit
  have htarget : l.header ∈ (p.jump l.header).targets := by
    rw [hjump, heq]
    cases stays <;> simp [Jump.targets]
  exact h.latch_ne_header ((hl.header_mem_targets hf hsucc h.latches h.again (hl.header_mem hf)).1 htarget).symm

include hsucc hI hJ in
theorem inStep_turn {b : BlockId} (hb : b ∈ l.body) {k : Triple V} {e : Env V W} (x : V)
    (hv : e.cell v = k.control) :
    InStep a v l (p.turn I b (e.setAll a.hidden { k with control := if b = g.latch then k.control else x }.values))
      ((p.turn I b e).1, (p.turn I b e).2, k) := by
  have hlatch := h.latch_mem hf hl
  have hheader := hl.header_mem hf
  have hunread : ∀ t ∈ (p.jump b).condition?, ∀ c ∈ a.hidden, t.count c = 0 :=
    fun t ht c hc => (h.unread hlatch hheader hc b).2 t ht
  rw [hI.turn_setAll (fun _ hx => hx) hunread]
  have houtside (t : Option BlockId) (ht : ∀ b ∈ t, b ∉ l.body) (xs : List V) :
      InStep a v l (t, (p.turn I b e).2.setAll a.hidden xs) (t, (p.turn I b e).2, k) :=
    .outside ht (Env.apart_setAll (fun _ hx => List.mem_append_left _ hx) _)
  cases ht : (p.turn I b e).1 with
  | none => exact houtside none (by simp) _
  | some t =>
    have htarget : t ∈ (p.jump b).targets := Jump.follow_target ht
    by_cases hin : t ∈ l.body
    · by_cases hbl : b = g.latch
      · subst hbl
        rw [h.again, List.mem_singleton] at htarget
        subst htarget
        rw [if_pos rfl]
        exact .header _ k
      · rw [if_neg hbl]
        have hth : t ≠ l.header := by
          rintro rfl
          exact hbl ((hl.header_mem_targets hf hsucc h.latches h.again hb).1 htarget)
        exact .body x hin hth ((hJ.turn_keeps p b e).trans hv)
    · exact houtside (some t) (by simpa using hin) _

include hJ in
theorem next_header (e : Env V W) (k : Triple V) :
    let r := J.invoke k g.variableCells.length e
    (a.machine I l p).next (some l.header, e.setAll a.hidden k.values) =
      some ([.enters l.header (e.apart a.hidden), .calls k],
        some (if J.isNil (r.1.headD J.nil) then g.follow else g.bodyEntry),
        (r.2.setAll g.variableCells r.1).setAll a.hidden k.values) := by
  have happart : (e.setAll a.hidden k.values).apart a.hidden = e.apart a.hidden := Env.apart_setAll (fun _ hx => hx) _
  have hsights : I.sights a.hidden (p.body l.header) (e.setAll a.hidden k.values) = [] :=
    I.sights_eq_nil _ h.mentions_header _
  simp [Advance.machine, hl.header_mem hf, hsights, happart, h.cells_hidden, h.runAll_header hJ, h.turn_header hJ,
    h.cell_first hJ]

include hg hI in
theorem next_body {b : BlockId} (hb : b ∈ l.body) (hne : b ≠ l.header) {k : Triple V} {e : Env V W} (x : V)
    (hkept : (I.meaning.runAll ((g.strip p).body b) e).cell v = k.control) :
    (a.machine I l p).next (some b, e.setAll a.hidden { k with control := x }.values) =
      some (.enters b (e.apart a.hidden) :: (I.sights a.hidden ((g.strip p).body b) e).map .sight,
        p.turn I b ((I.meaning.runAll ((g.strip p).body b) e).setAll a.hidden
          { k with control := if b = g.latch then k.control else x }.values)) := by
  have hlatch := h.latch_mem hf hl
  have hquiet := h.not_mentions hlatch (hl.header_mem hf) hg hb
  have happart : (e.setAll a.hidden { k with control := x }.values).apart a.hidden = e.apart a.hidden :=
    Env.apart_setAll (fun _ hx => hx) _
  have hrun : I.meaning.runAll (p.body b) (e.setAll a.hidden { k with control := x }.values) =
      (I.meaning.runAll ((g.strip p).body b) e).setAll a.hidden
        { k with control := if b = g.latch then k.control else x }.values := by
    rw [h.body_eq hlatch hne, Meaning.runAll_append, hI.runAll_setAll (fun _ hx => hx) hquiet,
      h.runAll_closing hI hb x hkept]
  have hsights : I.sights a.hidden (p.body b) (e.setAll a.hidden { k with control := x }.values) =
      I.sights a.hidden ((g.strip p).body b) e := by
    rw [h.body_eq hlatch hne, Interpretation.sights_append, I.sights_eq_nil _ (h.mentions_closing hb),
      List.append_nil, hI.sights_setAll (fun _ hx => hx) hquiet]
  rw [← hsights, ← happart, ← hrun]
  simp [Advance.machine, hb, hne]

include hsucc hg hI hJ in
theorem step_matches (c : Option BlockId × Env V W) (d : Option BlockId × Env V W × Triple V) (hcd : InStep a v l c d) :
    Matches (a.machine I l p) (g.machine I J a.hidden l (g.strip p))
      (fun c => (c.1, c.2.apart (a.hidden ++ a.results))) (fun d => (d.1, d.2.1.apart (a.hidden ++ a.results)))
      (InStep a v l) c d := by
  cases hcd with
  | @outside t e e' k ht he =>
    refine ⟨[], (t, e), (t, e', k), 0, 0, .refl _, .refl _, .inl ⟨?_, ?_, by simp [he]⟩⟩
    · cases t with
      | none => rfl
      | some b => exact if_neg (ht b rfl)
    · cases t with
      | none => rfl
      | some b =>
        have hbh : b ≠ l.header := fun heq => ht b rfl (heq ▸ hl.header_mem hf)
        simp [GenericLoop.machine, hbh, ht b rfl]
  | header e k =>
    let r := J.invoke k g.variableCells.length e
    have hright : (g.machine I J a.hidden l (g.strip p)).next (some l.header, e, k) =
        some ([.enters l.header (e.apart a.hidden), .calls k],
          if J.isNil (r.1.headD J.nil) then (some g.follow, r.2, k)
          else (some g.bodyEntry, r.2.setAll g.variableCells r.1, { k with control := r.1.headD J.nil })) :=
      if_pos rfl
    refine ⟨_, _, _, 1, 1, .one (h.next_header hf hl hJ e k), .one hright, .inr ⟨Nat.one_pos, Nat.one_pos, ?_⟩⟩
    by_cases hnil : J.isNil (r.1.headD J.nil) = true
    · rw [if_pos hnil, if_pos hnil]
      refine .outside (by simpa using h.follow_notMem) ?_
      rw [Env.apart_setAll (fun _ hx => List.mem_append_left _ hx),
        Env.apart_setAll fun _ hx => List.mem_append_right _ (h.results ▸ hx)]
    · rw [if_neg hnil, if_neg hnil]
      exact .body (k := { k with control := r.1.headD J.nil }) k.control h.bodyEntry_mem
        (h.bodyEntry_ne_header hf hl hsucc) (h.cell_first hJ e k)
  | @body b e k x hb hne hv =>
    have hkept : (I.meaning.runAll ((g.strip p).body b) e).cell v = k.control :=
      (hJ.runAll_keeps (fun s hs => hg b hb s hs v (.head _)) e).trans hv
    have hturn : (g.strip p).turn I = p.turn I := by
      funext b e
      rw [Proto.turn, jump_strip, Proto.turn]
    have hright : (g.machine I J a.hidden l (g.strip p)).next (some b, e, k) =
        some (.enters b (e.apart a.hidden) :: (I.sights a.hidden ((g.strip p).body b) e).map .sight,
          (p.turn I b (I.meaning.runAll ((g.strip p).body b) e)).1,
          (p.turn I b (I.meaning.runAll ((g.strip p).body b) e)).2, k) := by
      simp [GenericLoop.machine, hb, hne, hturn]
    exact ⟨_, _, _, 1, 1, .one (h.next_body hf hl hg hI hb hne x hkept), .one hright,
      .inr ⟨Nat.one_pos, Nat.one_pos, h.inStep_turn hf hl hsucc hI hJ hb x hkept⟩⟩

include hsucc hg hI hJ in
/-- A loop over an iterator runs like the `for`: the same blocks in the same order with the same values in
the variables, the same calls of the generator, and the same way out. -/
theorem sameRuns (e : Env V W) :
    SameRuns (a.machine I l p) (g.machine I J a.hidden l (g.strip p))
      (fun c => (c.1, c.2.apart (a.hidden ++ a.results))) (fun d => (d.1, d.2.1.apart (a.hidden ++ a.results)))
      (some l.header, I.meaning.runAll (p.body g.preheader) e)
      (some l.header, g.enter I J (g.strip p) e) := by
  apply SameRuns.of_matches (h.step_matches hf hl hsucc hg hI hJ)
  rw [h.runAll_preheader hJ hI (h.latch_mem hf hl) (hl.header_mem hf)]
  exact .header _ _

end Driven

theorem sameRuns_of_recognize {slotOf : SlotOf} {p : Proto} {l : NaturalLoop} {g : GenericLoop} {i : Iteration}
    {v : Cell} {I : Interpretation V W} {J : Iterators V W} (hp : p.WellShaped)
    (hl : l ∈ (Flow.of p).loops (Flow.of p).dominance) (hi : iteration? slotOf p l = some i)
    (hv : i.step.results.head? = some v) (h : recognize slotOf p (.of p) l = .full g)
    (hg : g.Undisturbed i.step v l p) (hI : I.Lawful i.step.hidden) (hJ : J.Lawful I i.step.hidden v)
    (e : Env V W) :
    SameRuns (i.step.machine I l p) (g.machine I J i.step.hidden l (g.strip p))
      (fun c => (c.1, c.2.apart (i.step.hidden ++ i.step.results)))
      (fun d => (d.1, d.2.1.apart (i.step.hidden ++ i.step.results)))
      (some l.header, I.meaning.runAll (p.body g.preheader) e) (some l.header, g.enter I J (g.strip p) e) := by
  obtain ⟨i', v', hi', hdriven⟩ := driven_of_recognize h
  obtain rfl : i' = i := Option.some.inj (hi'.symm.trans hi)
  obtain rfl : v' = v := Option.some.inj (hdriven.first.symm.trans hv)
  exact hdriven.sameRuns hp.rooted (Flow.isLoop_of_mem hl) hp.successors hg hI hJ e

end GenericLoop

namespace Iterators

def integers : Iterators Int Nat where
  nil := 0
  isNil x := decide (x = 0)
  adjusted as n e := (Expr.integers e.cell n as, e)
  invoke k n e := (([Expr.numberBehind k.state k.control] ++ List.replicate n 0).take n, e)

theorem integers_lawful (hidden : List Cell) (v : Cell) : integers.Lawful .integers hidden v where
  length as n e := by simp [integers, Expr.integers]
  each as e := by simp [integers, Expr.integers_length, Interpretation.evalAll_integers]
  assign h := Interpretation.run_assign_integers h _
  call hf hx hy := by
    simp [integers, Expr.integers, Expr.integer, Expr.integer_of_cell? hx, Expr.integer_of_cell? hy]
  invoke_set _ _ _ _ _ := rfl
  nil_right {a b c e} ha hb := by
    cases b with
    | constant k => cases k <;> simp_all [Interpretation.integers, integers, Expr.isNil, Expr.integer, Expr.integer_of_cell? ha]
    | _ => cases hb
  nil_left {a b c e} ha hb := by
    cases a with
    | constant k => cases k <;> simp_all [Interpretation.integers, integers, Expr.isNil, Expr.integer, Expr.integer_of_cell? hb, eq_comm]
    | _ => cases ha
  run_keeps {s} e hs := by
    cases s with
    | assign a => exact Env.cell_setAll_of_notMem hs _
    | _ => rfl
  test_keeps a e := by
    cases a with
    | binary op a b => cases op <;> rfl
    | _ => rfl

end Iterators

namespace GenericLoop

def iterating : Proto :=
  { id := 0, parameters := 3
    blocks := [
      ⟨0, 0, 0, [.store (.slot 3) (.slot 0), .store (.slot 4) (.slot 1), .store (.slot 5) (.slot 2)], .always 1⟩,
      ⟨1, 0, 0, [.store (.slot 6) (.call (.slot 3) [.slot 4, .slot 5])],
        .branch (.binary .ne (.slot 6) (.constant .nil)) 2 3⟩,
      ⟨2, 0, 0, [.call (.global "f") [.slot 6] 0, .store (.slot 5) (.slot 6)], .always 1⟩,
      ⟨3, 0, 0, [.ret [] 0], .leave⟩] }

theorem sameRuns_of_recognize_iterating (e : Env Int Nat) : ∃ (g : GenericLoop) (a : Advance),
    recognize slotOfSlot iterating (.of iterating) ⟨1, [2], [1, 2]⟩ = .full g ∧
    SameRuns (a.machine .integers ⟨1, [2], [1, 2]⟩ iterating)
      (g.machine .integers .integers a.hidden ⟨1, [2], [1, 2]⟩ (g.strip iterating))
      (fun c => (c.1, c.2.apart (a.hidden ++ a.results))) (fun d => (d.1, d.2.1.apart (a.hidden ++ a.results)))
      (some 1, Interpretation.integers.meaning.runAll (iterating.body 0) e)
      (some 1, g.enter .integers .integers (g.strip iterating) e) := by
  let a : Advance := ⟨⟨.slot, 3⟩, ⟨.slot, 4⟩, ⟨.slot, 5⟩, [⟨.slot, 6⟩]⟩
  let g : GenericLoop := ⟨1, 2, 0, 3, 2, 3, [⟨.slot, 6⟩], [.slot 0, .slot 1, .slot 2]⟩
  have hl : (Flow.of iterating).loops (Flow.of iterating).dominance = [⟨1, [2], [1, 2]⟩] := by cbv
  have hg : recognize slotOfSlot iterating (.of iterating) ⟨1, [2], [1, 2]⟩ = .full g := by cbv
  have hi : iteration? slotOfSlot iterating ⟨1, [2], [1, 2]⟩ = some ⟨2, a, true⟩ := by cbv
  have hundisturbed : g.Undisturbed a ⟨.slot, 6⟩ ⟨1, [2], [1, 2]⟩ iterating := by
    have hheader : (g.strip iterating).body 1 = [] := rfl
    have hbody : (g.strip iterating).body 2 = [.call (.global "f") [.slot 6] 0] := rfl
    intro b hb
    obtain rfl | rfl : b = 1 ∨ b = 2 := by simpa using hb
    · simp [hheader]
    · simp [hbody, Stmt.writtenCells]
  exact ⟨g, a, hg, sameRuns_of_recognize (Proto.wellShaped_of_violation (by cbv)) (by simp [hl]) hi rfl hg hundisturbed
    (Interpretation.integers_lawful _) (Iterators.integers_lawful _ _) e⟩

def assigning : Proto :=
  { id := 0, parameters := 3
    blocks := [
      ⟨0, 0, 0, [.store (.slot 3) (.slot 0), .store (.slot 4) (.slot 1), .store (.slot 5) (.slot 2)], .always 1⟩,
      ⟨1, 0, 0, [.store (.slot 6) (.call (.slot 3) [.slot 4, .slot 5])],
        .branch (.binary .ne (.slot 6) (.constant .nil)) 2 5⟩,
      ⟨2, 0, 0, [.call (.global "f") [.slot 6] 0], .branch (.global "skip") 3 4⟩,
      ⟨3, 0, 0, [.store (.slot 6) (.slot 1)], .always 4⟩,
      ⟨4, 0, 0, [.store (.slot 5) (.slot 6)], .always 1⟩,
      ⟨5, 0, 0, [.ret [] 0], .leave⟩] }

/-- Nothing keeps the body from writing what the latch makes the next control. -/
example : ∃ g i, recognize slotOfSlot assigning (.of assigning) ⟨1, [4], [1, 2, 3, 4]⟩ = .full g ∧
    iteration? slotOfSlot assigning ⟨1, [4], [1, 2, 3, 4]⟩ = some i ∧
    ¬ g.Undisturbed i.step ⟨.slot, 6⟩ ⟨1, [4], [1, 2, 3, 4]⟩ assigning := by
  let a : Advance := ⟨⟨.slot, 3⟩, ⟨.slot, 4⟩, ⟨.slot, 5⟩, [⟨.slot, 6⟩]⟩
  let g : GenericLoop := ⟨1, 4, 0, 3, 2, 5, [⟨.slot, 6⟩], [.slot 0, .slot 1, .slot 2]⟩
  refine ⟨g, ⟨4, a, true⟩, by cbv, by cbv, fun h => ?_⟩
  exact h 3 (by simp) (.store (.slot 6) (.slot 1)) (.head _) ⟨.slot, 6⟩ (.head _) (.head _)

end GenericLoop

end LuaLift
