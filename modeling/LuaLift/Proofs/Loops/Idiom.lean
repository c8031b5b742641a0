import LuaLift.Proofs.Loops.Environment
import LuaLift.Proofs.Loops.Plain
import LuaLift.Proofs.Syntax.Cells
import Mathlib

namespace LuaLift

namespace Recognition

variable {α β : Type} {b : β}

theorem orNone_eq_full {o : Option α} {k : α → Recognition β} (h : orNone o k = .full b) :
    ∃ a, o = some a ∧ k a = .full b := by
  cases o with
  | none => cases h
  | some a => exact ⟨a, rfl, h⟩

theorem orNear_eq_full {m : Mismatch} {o : Option α} {k : α → Recognition β} (h : orNear m o k = .full b) :
    ∃ a, o = some a ∧ k a = .full b := by
  cases o with
  | none => cases h
  | some a => exact ⟨a, rfl, h⟩

theorem provided_eq_full {m : Mismatch} {c : Bool} {k : Recognition β} (h : provided m c k = .full b) :
    c = true ∧ k = .full b := by
  cases c with
  | false => cases h
  | true => exact ⟨rfl, h⟩

end Recognition

theorem adjacent_eq_true {slotOf : SlotOf} {base other : Cell} {offset : Nat}
    (h : adjacent slotOf base other offset = true) :
    ∃ s, slotOf base = some s ∧ slotOf other = some (s + offset) := by
  unfold adjacent at h
  split at h
  · next b o hb ho =>
    rw [beq_iff_eq] at h
    exact ⟨b, hb, h ▸ ho⟩
  · cases h

theorem Stmt.single?_eq_some {s : Stmt} {t e : Expr} (h : s.single? = some (t, e)) :
    ∃ a, s = .assign a ∧ a.targets = [t] ∧ a.values = [e] := by
  unfold single? at h
  split at h <;> cases h
  exact ⟨_, rfl, rfl, rfl⟩

theorem Stmt.singleCell?_eq_some {s : Stmt} {c : Cell} {e : Expr} (h : s.singleCell? = some (c, e)) :
    ∃ a t, s = .assign a ∧ a.targets = [t] ∧ t.cell? = some c ∧ a.values = [e] := by
  simp only [singleCell?, Option.bind_eq_some_iff, Option.map_eq_some_iff] at h
  obtain ⟨⟨t, e'⟩, hs, c', hc, h⟩ := h
  cases h
  obtain ⟨a, rfl, ht, he⟩ := Stmt.single?_eq_some hs
  exact ⟨a, t, rfl, ht, hc, he⟩

theorem Expr.targetOperands_of_cell? {t : Expr} {c : Cell} (h : t.cell? = some c) : t.targetOperands = [] := by
  rw [ofCell_of_cell? h]
  obtain ⟨_ | _, i⟩ := c <;> rfl

theorem Stmt.readCount_of_singleCell? {s : Stmt} {c : Cell} {e : Expr} (h : s.singleCell? = some (c, e)) (x : Cell) :
    s.readCount x = e.count x := by
  obtain ⟨a, t, rfl, ht, hc, he⟩ := singleCell?_eq_some h
  simp [readCount, operands, ht, he, Expr.targetOperands_of_cell? hc, total]

namespace Proto

variable {p : Proto} {b b' : BlockId}

theorem body_modify {g : List Stmt → List Stmt} (hg : g [] = []) :
    (p.modify b fun c => { c with body := g c.body }).body b' = if b = b' then g (p.body b') else p.body b' := by
  simp only [body, modify, List.getElem?_modify]
  cases p.blocks[b']? with
  | none => simp [hg]
  | some c => by_cases h : b = b' <;> simp [h]

theorem jump_modify {g : List Stmt → List Stmt} :
    (p.modify b fun c => { c with body := g c.body }).jump b' = p.jump b' := by
  simp only [jump, modify, List.getElem?_modify]
  cases p.blocks[b']? with
  | none => rfl
  | some c => by_cases h : b = b' <;> simp [h]

theorem body_dropLast (p : Proto) (b b' : BlockId) (n : Nat) :
    (p.dropLast b n).body b' = if b = b' then (p.body b').take ((p.body b').length - n) else p.body b' :=
  body_modify (g := fun l => l.take (l.length - n)) List.take_nil

theorem body_dropFirst (p : Proto) (b b' : BlockId) :
    (p.dropFirst b).body b' = if b = b' then (p.body b').drop 1 else p.body b' :=
  body_modify (g := fun l => l.drop 1) rfl

@[simp] theorem jump_dropLast (p : Proto) (b b' : BlockId) (n : Nat) : (p.dropLast b n).jump b' = p.jump b' :=
  jump_modify (g := fun l => l.take (l.length - n))

@[simp] theorem jump_dropFirst (p : Proto) (b b' : BlockId) : (p.dropFirst b).jump b' = p.jump b' :=
  jump_modify (g := fun l => l.drop 1)

theorem body_clear (p : Proto) (b b' : BlockId) : (p.clear b).body b' = if b = b' then [] else p.body b' :=
  body_modify (g := fun _ => []) rfl

@[simp] theorem jump_clear (p : Proto) (b b' : BlockId) : (p.clear b).jump b' = p.jump b' :=
  jump_modify (g := fun _ => [])

end Proto

namespace Block

def readCount (c : Cell) (b : Block) : Nat :=
  total (·.readCount c) b.body + total (·.count c) b.jump.condition?.toList

theorem total_operands (c : Cell) (l : List Stmt) :
    total (·.count c) (l.flatMap (·.operands)) = total (·.readCount c) l := by
  induction l with
  | nil => rfl
  | cons s l ih => simp only [List.flatMap_cons, total_append, total, ih, Stmt.readCount]

end Block

namespace Proto

variable {p : Proto} {b : BlockId}

theorem readCount_eq (p : Proto) (c : Cell) : p.readCount c = total (·.readCount c) p.blocks := by
  unfold readCount
  congr 1
  funext b
  rw [total_append, Block.total_operands, Block.readCount]

theorem readCount_modify (c : Cell) {g : List Stmt → List Stmt} {cut : List Stmt} (hg : g [] = [])
    (hcut : total (·.readCount c) (p.body b) = total (·.readCount c) (g (p.body b)) + total (·.readCount c) cut) :
    (p.modify b fun d => { d with body := g d.body }).readCount c + total (·.readCount c) cut = p.readCount c := by
  rw [readCount_eq, readCount_eq]
  cases hb : p.blocks[b]? with
  | none =>
    have hbody : p.body b = [] := by simp [body, hb]
    rw [hbody, hg] at hcut
    simp only [total] at hcut
    have hself : p.blocks.modify b (fun d => { d with body := g d.body }) = p.blocks :=
      List.modify_eq_self (by simpa using hb)
    simp only [modify, hself]
    omega
  | some d =>
    have hbody : p.body b = d.body := by simp [body, hb]
    rw [hbody] at hcut
    have := total_modify (·.readCount c) hb fun d => { d with body := g d.body }
    simp only [Block.readCount] at this ⊢
    simp only [modify]
    omega

theorem readCount_dropLast (p : Proto) (c : Cell) (b : BlockId) (n : Nat) : (p.dropLast b n).readCount c +
    total (·.readCount c) ((p.body b).drop ((p.body b).length - n)) = p.readCount c := by
  refine readCount_modify (g := fun l => l.take (l.length - n)) c List.take_nil ?_
  rw [← total_append, List.take_append_drop]

theorem readCount_dropFirst (p : Proto) (c : Cell) (b : BlockId) : (p.dropFirst b).readCount c +
    total (·.readCount c) ((p.body b).take 1) = p.readCount c := by
  refine readCount_modify (g := fun l => l.drop 1) c List.drop_nil ?_
  rw [Nat.add_comm, ← total_append, List.take_append_drop]

theorem readCount_clear (p : Proto) (c : Cell) (b : BlockId) :
    (p.clear b).readCount c + total (·.readCount c) (p.body b) = p.readCount c :=
  readCount_modify (g := fun _ => []) c rfl (by simp [total])

def readsAt (p : Proto) (c : Cell) (b : BlockId) : Nat :=
  total (·.readCount c) (p.body b) + total (·.count c) (p.jump b).condition?.toList

theorem readsAt_eq (p : Proto) (c : Cell) (b : BlockId) :
    p.readsAt c b = (p.blocks[b]?.map (·.readCount c)).getD 0 := by
  unfold readsAt body jump
  cases p.blocks[b]? <;> rfl

theorem readsAt_le (p : Proto) (c : Cell) (b : BlockId) : p.readsAt c b ≤ p.readCount c := by
  rw [readsAt_eq, readCount_eq]
  cases hb : p.blocks[b]? with
  | none => simp
  | some d => simpa using le_total_of_mem (f := (·.readCount c)) (List.mem_of_getElem? hb)

theorem readsAt_add_le (p : Proto) (c : Cell) {b b' : BlockId} (h : b ≠ b') :
    p.readsAt c b + p.readsAt c b' ≤ p.readCount c := by
  rw [readsAt_eq, readsAt_eq, readCount_eq]
  cases hb : p.blocks[b]? with
  | none =>
    have := p.readsAt_le c b'
    rw [readsAt_eq, readCount_eq] at this
    simpa using this
  | some d =>
    cases hb' : p.blocks[b']? with
    | none => simpa using le_total_of_mem (f := (·.readCount c)) (List.mem_of_getElem? hb)
    | some d' => exact add_le_total (f := (·.readCount c)) hb hb' h

end Proto

namespace Expr

variable {e : Expr} {c : Cell}

theorem counterTest?_binary {op : BinaryOp} {a b : Expr} {t : CounterTest}
    (h : (binary op a b).counterTest? c = some t) : ∃ x y, a.cell? = some x ∧ b.cell? = some y ∧
      (x = c ∧ t = ⟨y, op, false⟩ ∨ y = c ∧ t = ⟨x, op.mirrored, false⟩) := by
  rw [counterTest?] at h
  split at h
  · cases h
  · split at h
    · next x y hx hy =>
      refine ⟨x, y, hx, hy, ?_⟩
      split at h
      · next hc => exact .inl ⟨hc, (Option.some.inj h).symm⟩
      · split at h
        · next hc => exact .inr ⟨hc, (Option.some.inj h).symm⟩
        · cases h
    · cases h

theorem counterTest?_not {t : CounterTest} (h : (unary .not e).counterTest? c = some t) :
    ∃ u, e.counterTest? c = some u ∧ t = { u with negated := !u.negated } := by
  rw [counterTest?, Option.map_eq_some_iff] at h
  obtain ⟨u, hu, rfl⟩ := h
  exact ⟨u, hu, rfl⟩

theorem one_le_count_of_counterTest? : (e : Expr) → {t : CounterTest} → e.counterTest? c = some t →
    1 ≤ e.count c ∧ 1 ≤ e.count t.limit
  | unary .not e, t, h => by
    obtain ⟨u, hu, rfl⟩ := counterTest?_not h
    have := one_le_count_of_counterTest? e hu
    exact this
  | binary op a b, t, h => by
    obtain ⟨x, y, hx, hy, ⟨rfl, rfl⟩ | ⟨rfl, rfl⟩⟩ := counterTest?_binary h <;>
      simp [count_binary, count_of_cell? hx, count_of_cell? hy]

theorem stepOf?_eq_some {d : Cell} (h : e.stepOf? c = some d) :
    ∃ a b, e = binary .add a b ∧ a.cell? = some c ∧ b.cell? = some d := by
  unfold stepOf? at h
  split at h
  · next a b =>
    split at h
    · next ha => exact ⟨a, b, rfl, ha, h⟩
    · cases h
  · cases h

end Expr

theorem of_guard {P : Prop} [Decidable P] {u : Unit} (h : (guard P : Option Unit) = some u) : P := by
  by_cases hP : P
  · exact hP
  · rw [guard, if_neg hP] at h
    cases h

theorem NaturalLoop.preheader?_eq_some {l : NaturalLoop} {p : Proto} {f : Flow} {b : BlockId}
    (h : l.preheader? p f = some b) : b ∉ l.body ∧ p.jump b = .always l.header := by
  unfold preheader? at h
  split at h
  · next b' hb' =>
    have hmem : b' ∈ (f.predecessors l.header).filter fun b => !l.contains b := by simp [hb']
    split at h
    · next t hj =>
      split at h
      · next ht =>
        cases h
        refine ⟨?_, ht ▸ hj⟩
        simpa [contains] using (List.mem_filter.1 hmem).2
      · cases h
    · cases h
  · cases h

theorem Flow.IsLoop.header_mem_targets {p : Proto} {f : Flow} {l : NaturalLoop} (hl : f.IsLoop l) (hf : f.Rooted)
    (hsucc : ∀ b, f.successors b = (p.jump b).targets) {latch b : BlockId} (hlatches : l.latches = [latch])
    (hagain : (p.jump latch).targets = [l.header]) (hb : b ∈ l.body) :
    l.header ∈ (p.jump b).targets ↔ b = latch := by
  constructor
  · intro ht
    have hback : f.BackEdge b l.header := ⟨hl.reachable hf hb, by rwa [hsucc], hl.dominates hf hb⟩
    simpa [hlatches] using hl.mem_latches.2 hback
  · rintro rfl
    simp [hagain]

namespace NumericLoop

structure Counted (slotOf : SlotOf) (p : Proto) (f : Flow) (l : NaturalLoop) (c : Counters) (n : NumericLoop) :
    Prop where
  latches : l.latches = [n.latch]
  again : (p.jump n.latch).targets = [l.header]
  increment : ∃ s e, (p.body n.latch).getLast? = some s ∧ s.singleCell? = some (c.counter, e) ∧
    e.stepOf? c.counter = some c.step
  header : p.body l.header = []
  test : ∃ e t, l.exitTest? (p.jump l.header) = some ⟨n.bodyEntry, n.follow, e⟩ ∧
    (p.jump l.header).condition? = some t ∧ t.counterTest? c.counter = some c.test ∧ e = !c.test.negated
  comparison : c.test.comparison = .le ∨ c.test.comparison = .ge
  limit : adjacent slotOf c.counter c.test.limit 1 = true
  step : adjacent slotOf c.counter c.step 2 = true
  copy : ∃ s e, (p.body n.bodyEntry).head? = some s ∧ s.singleCell? = some (n.variableCell, e) ∧
    e.cell? = some c.counter
  visible : adjacent slotOf c.counter n.variableCell 3 = true
  preheader : l.preheader? p f = some n.preheader
  setup : initializers? (p.body n.preheader) [c.counter, c.test.limit, c.step] =
    some ⟨[n.start, n.stop, n.step], n.setup⟩
  counterReads : p.readCount c.counter = 3
  limitReads : p.readCount c.test.limit = 1
  stepReads : p.readCount c.step = 1

theorem copy?_eq_some {slotOf : SlotOf} {counter v : Cell} {l : List Stmt} (h : copy? slotOf counter l = some v) :
    ∃ s e, l.head? = some s ∧ s.singleCell? = some (v, e) ∧ e.cell? = some counter ∧
      adjacent slotOf counter v 3 = true := by
  simp only [copy?, Option.bind_eq_some_iff] at h
  obtain ⟨⟨w, e⟩, ⟨s, hs, hw⟩, h⟩ := h
  split at h
  · next hc =>
    cases h
    simp only [Bool.and_eq_true, decide_eq_true_eq] at hc
    exact ⟨s, e, hs, hw, hc⟩
  · cases h

theorem counters?_eq_some {slotOf : SlotOf} {p : Proto} {l : NaturalLoop} {c : Counters}
    (h : counters? slotOf p l = some c) : l.latches = [c.latch] ∧ (p.jump c.latch).targets = [l.header] ∧
      p.body l.header = [] ∧ (∃ s e, (p.body c.latch).getLast? = some s ∧
        s.singleCell? = some (c.counter, e) ∧ e.stepOf? c.counter = some c.step) ∧
      (∃ t, (p.jump l.header).condition? = some t ∧ t.counterTest? c.counter = some c.test) ∧
      adjacent slotOf c.counter c.test.limit 1 = true ∧ adjacent slotOf c.counter c.step 2 = true := by
  simp only [counters?, Option.bind_eq_bind, Option.bind_eq_some_iff] at h
  obtain ⟨latch, hlatch, block, hblock, _, hagain, ⟨counter, step⟩, hincrement, test, htest, _, hadjacent, h⟩ := h
  cases h
  have hbody : p.body latch = block.body := Proto.body_of_getElem? hblock
  have hjump : p.jump latch = block.jump := Proto.jump_of_getElem? hblock
  have hguard := of_guard hagain
  have hguard' := of_guard hadjacent
  simp only [Bool.and_eq_true, decide_eq_true_eq, List.isEmpty_iff] at hguard hguard'
  simp only [hbody, hjump]
  refine ⟨?_, hguard.1, hguard.2, ?_, htest, hguard'⟩
  · unfold NaturalLoop.singleLatch? at hlatch
    split at hlatch
    · next hlatches =>
      cases hlatch
      exact hlatches
    · cases hlatch
  · simp only [increment?, Option.bind_eq_some_iff, Option.map_eq_some_iff] at hincrement
    obtain ⟨⟨d, e⟩, ⟨s, hs, hd⟩, step', hstep, h⟩ := hincrement
    cases h
    exact ⟨s, e, hs, hd, hstep⟩

theorem counted_of_recognize {slotOf : SlotOf} {p : Proto} {f : Flow} {l : NaturalLoop} {n : NumericLoop}
    (h : recognize slotOf true p f l = .full n) : ∃ c, counters? slotOf p l = some c ∧ Counted slotOf p f l c n := by
  unfold recognize at h
  obtain ⟨c, hc, h⟩ := Recognition.orNone_eq_full h
  obtain ⟨exit, hexit, h⟩ := Recognition.orNear_eq_full h
  obtain ⟨hcomparison, h⟩ := Recognition.provided_eq_full h
  obtain ⟨hstays, h⟩ := Recognition.provided_eq_full h
  obtain ⟨v, hv, h⟩ := Recognition.orNear_eq_full h
  obtain ⟨b, hb, h⟩ := Recognition.orNear_eq_full h
  obtain ⟨init, hinit, h⟩ := Recognition.orNear_eq_full h
  split at h
  · next start stop step hvalues =>
    obtain ⟨hreads, h⟩ := Recognition.provided_eq_full h
    obtain ⟨-, h⟩ := Recognition.provided_eq_full h
    cases h
    obtain ⟨hlatches, hagain, hheader, hincrement, ⟨t, ht, htest⟩, hlimit, hstep⟩ := counters?_eq_some hc
    obtain ⟨s, e, hs, he, hread, hvariable⟩ := copy?_eq_some hv
    simp only [Bool.not_true, Bool.false_or, Bool.and_eq_true, Bool.or_eq_true, beq_iff_eq, bne_iff_ne] at hreads hcomparison hstays
    exact ⟨c, hc, hlatches, hagain, hincrement, hheader, ⟨exit.staysOnTrue, t, hexit, ht, htest, Bool.eq_not.2 hstays⟩,
      hcomparison, hlimit, hstep, ⟨s, e, hs, he, hread⟩, hvariable, hb, by rw [← hvalues]; exact hinit, hreads.1.1,
      hreads.1.2, hreads.2⟩
  · cases h

def Counters.hidden (c : Counters) : List Cell := [c.counter, c.test.limit, c.step]

def opening (n : NumericLoop) (p : Proto) (b : BlockId) : List Stmt :=
  if b = n.bodyEntry then (p.body b).take 1 else []

def closing (n : NumericLoop) (p : Proto) (b : BlockId) : List Stmt :=
  if b = n.latch then (p.body b).drop ((p.body b).length - 1)
  else if b = n.preheader then (p.body b).drop ((p.body b).length - n.setup)
  else []

@[simp] theorem jump_strip (n : NumericLoop) (p : Proto) (b : BlockId) : (n.strip p).jump b = p.jump b := by
  simp [strip]

namespace Counted

variable {slotOf : SlotOf} {p : Proto} {f : Flow} {l : NaturalLoop} {c : Counters} {n : NumericLoop}
  (h : Counted slotOf p f l c n)
include h

theorem counter_ne_limit : c.counter ≠ c.test.limit := by
  obtain ⟨s, hs, ht⟩ := adjacent_eq_true h.limit
  rintro heq
  simp [← heq, hs] at ht

theorem counter_ne_step : c.counter ≠ c.step := by
  obtain ⟨s, hs, ht⟩ := adjacent_eq_true h.step
  rintro heq
  simp [← heq, hs] at ht

theorem limit_ne_step : c.test.limit ≠ c.step := by
  obtain ⟨s, hs, ht⟩ := adjacent_eq_true h.limit
  obtain ⟨s', hs', ht'⟩ := adjacent_eq_true h.step
  rintro heq
  rw [heq, ht'] at ht
  simp_all

theorem variable_notMem : n.variableCell ∉ c.hidden := by
  obtain ⟨s, hs, hv⟩ := adjacent_eq_true h.visible
  obtain ⟨s', hs', ht⟩ := adjacent_eq_true h.limit
  obtain ⟨s'', hs'', ht'⟩ := adjacent_eq_true h.step
  simp only [Counters.hidden, List.mem_cons, List.not_mem_nil, or_false, not_or]
  refine ⟨?_, ?_, ?_⟩ <;> rintro heq <;> simp_all

theorem preheader_notMem : n.preheader ∉ l.body := (NaturalLoop.preheader?_eq_some h.preheader).1

theorem bodyEntry_mem : n.bodyEntry ∈ l.body := by
  obtain ⟨e, t, he, -⟩ := h.test
  exact (NaturalLoop.exitTest?_eq_some he).1

theorem follow_notMem : n.follow ∉ l.body := by
  obtain ⟨e, t, he, -⟩ := h.test
  exact (NaturalLoop.exitTest?_eq_some he).2.1

theorem bodyEntry_ne_header : n.bodyEntry ≠ l.header := by
  obtain ⟨s, e, hs, -⟩ := h.copy
  intro heq
  rw [heq, h.header] at hs
  cases hs

theorem latch_ne_header : n.latch ≠ l.header := by
  obtain ⟨s, e, hs, -⟩ := h.increment
  intro heq
  rw [heq, h.header] at hs
  cases hs

theorem two_le_length (heq : n.bodyEntry = n.latch) : 2 ≤ (p.body n.latch).length := by
  obtain ⟨s, e, hs, he, hread⟩ := h.copy
  obtain ⟨s', e', hs', he', hstep⟩ := h.increment
  rw [heq] at hs
  match hbody : p.body n.latch with
  | [] => simp [hbody] at hs
  | [t] =>
    rw [hbody] at hs hs'
    cases hs
    cases hs'
    obtain rfl : e = e' := (Prod.mk.inj (Option.some.inj (he.symm.trans he'))).2
    obtain ⟨a, b, rfl, -⟩ := Expr.stepOf?_eq_some hstep
    cases hread
  | _ :: _ :: _ => simp

theorem body_eq (hlatch : n.latch ∈ l.body) (b : BlockId) :
    p.body b = n.opening p b ++ (n.strip p).body b ++ n.closing p b := by
  have hpe : n.preheader ≠ n.bodyEntry := fun heq => h.preheader_notMem (heq ▸ h.bodyEntry_mem)
  have hpl : n.preheader ≠ n.latch := fun heq => h.preheader_notMem (heq ▸ hlatch)
  simp only [strip, Proto.body_dropLast, Proto.body_dropFirst, opening, closing, eq_comm (a := b)]
  by_cases hl : n.latch = b
  · subst hl
    by_cases he : n.bodyEntry = n.latch
    · have := h.two_le_length he
      simp only [he, if_true, if_neg hpl, List.append_assoc]
      generalize p.body n.latch = body at this ⊢
      have htake : (body.take (body.length - 1)).take 1 = body.take 1 := by
        rw [List.take_take]
        congr 1
        omega
      rw [← htake, ← List.append_assoc, List.take_append_drop, List.take_append_drop]
    · simp [he, hpl]
  · by_cases he : n.bodyEntry = b
    · subst he
      simp [hpe, hl, -List.drop_one]
    · by_cases hp : n.preheader = b
      · subst hp
        simp [hl, he]
      · simp [hl, he, hp]

theorem readCount_strip (hlatch : n.latch ∈ l.body) (x : Cell) :
    (n.strip p).readCount x + total (·.readCount x) (n.opening p n.bodyEntry) +
      total (·.readCount x) (n.closing p n.latch) + total (·.readCount x) (n.closing p n.preheader) =
        p.readCount x := by
  have hpe : n.preheader ≠ n.bodyEntry := fun heq => h.preheader_notMem (heq ▸ h.bodyEntry_mem)
  have hpl : n.preheader ≠ n.latch := fun heq => h.preheader_notMem (heq ▸ hlatch)
  have h₁ := p.readCount_dropLast x n.latch 1
  have h₂ := (p.dropLast n.latch 1).readCount_dropFirst x n.bodyEntry
  have h₃ := ((p.dropLast n.latch 1).dropFirst n.bodyEntry).readCount_dropLast x n.preheader n.setup
  have hopening : ((p.dropLast n.latch 1).body n.bodyEntry).take 1 = (p.body n.bodyEntry).take 1 := by
    rw [Proto.body_dropLast]
    split
    · next heq =>
      have := h.two_le_length heq.symm
      rw [List.take_take, ← heq]
      congr 1
      omega
    · rfl
  have hclosing : ((p.dropLast n.latch 1).dropFirst n.bodyEntry).body n.preheader = p.body n.preheader := by
    rw [Proto.body_dropFirst, Proto.body_dropLast, if_neg (Ne.symm hpe), if_neg (Ne.symm hpl)]
  rw [hopening] at h₂
  rw [hclosing] at h₃
  simp only [strip, opening, closing, if_true, if_neg hpl]
  omega

theorem opening_bodyEntry : ∃ s e, n.opening p n.bodyEntry = [s] ∧
    s.singleCell? = some (n.variableCell, e) ∧ e.cell? = some c.counter := by
  obtain ⟨s, e, hs, he, hread⟩ := h.copy
  obtain ⟨rest, hbody⟩ := List.head?_eq_some_iff.1 hs
  exact ⟨s, e, by simp [opening, hbody], he, hread⟩

theorem closing_latch : ∃ s e, n.closing p n.latch = [s] ∧ s.singleCell? = some (c.counter, e) ∧
    e.stepOf? c.counter = some c.step := by
  obtain ⟨s, e, hs, he, hstep⟩ := h.increment
  obtain ⟨rest, hbody⟩ := List.getLast?_eq_some_iff.1 hs
  exact ⟨s, e, by simp [closing, hbody], he, hstep⟩

theorem readCount_strip_le (hlatch : n.latch ∈ l.body) {x : Cell} (hx : x ∈ c.hidden) {t : Expr}
    (ht : (p.jump l.header).condition? = some t) :
    (n.strip p).readCount x + total (·.readCount x) (n.closing p n.preheader) ≤ t.count x := by
  have hcount := h.readCount_strip hlatch x
  obtain ⟨-, t', -, ht', htest, -⟩ := h.test
  obtain rfl : t' = t := Option.some.inj (ht'.symm.trans ht)
  obtain ⟨htc, htl⟩ := Expr.one_le_count_of_counterTest? _ htest
  obtain ⟨s, e, hs, he, hread⟩ := h.opening_bodyEntry
  obtain ⟨s', e', hs', he', hstep⟩ := h.closing_latch
  obtain ⟨a, b, rfl, ha, hb⟩ := Expr.stepOf?_eq_some hstep
  simp only [hs, hs', total, Stmt.readCount_of_singleCell? he, Stmt.readCount_of_singleCell? he',
    Expr.count_binary] at hcount
  simp only [Counters.hidden, List.mem_cons, List.not_mem_nil, or_false] at hx
  obtain rfl | rfl | rfl := hx
  · have := h.counterReads
    have := Expr.count_of_cell? hread
    have := Expr.count_of_cell? ha
    omega
  · have := h.limitReads
    omega
  · have := h.stepReads
    have := Expr.count_of_cell? hb
    omega

theorem unread (hlatch : n.latch ∈ l.body) {x : Cell} (hx : x ∈ c.hidden) {b : BlockId} (hb : b ≠ l.header) :
    (∀ s ∈ (n.strip p).body b, s.readCount x = 0) ∧ ∀ t ∈ (p.jump b).condition?, t.count x = 0 := by
  obtain ⟨-, t, -, ht, -⟩ := h.test
  have hle := h.readCount_strip_le hlatch hx ht
  have hboth := (n.strip p).readsAt_add_le x hb
  simp only [Proto.readsAt, jump_strip, ht, Option.toList_some, total] at hboth
  refine ⟨fun s hs => ?_, fun t' ht' => ?_⟩
  · have := le_total_of_mem (f := (·.readCount x)) hs
    omega
  · rw [Option.mem_def] at ht'
    simp only [ht', Option.toList_some, total] at hboth
    omega

theorem unread_setup (hlatch : n.latch ∈ l.body) {x : Cell} (hx : x ∈ c.hidden) :
    ∀ s ∈ n.closing p n.preheader, s.readCount x = 0 := by
  intro s hs
  obtain ⟨-, t, -, ht, -⟩ := h.test
  have hle := h.readCount_strip_le hlatch hx ht
  have hboth := (n.strip p).readsAt_add_le x h.latch_ne_header
  simp only [Proto.readsAt, jump_strip, ht, Option.toList_some, total] at hboth
  have := le_total_of_mem (f := (·.readCount x)) hs
  omega

end Counted

end NumericLoop

end LuaLift
