import LuaLift.Proofs.Loops.Classify
import LuaLift.Proofs.Renumber.Loops

namespace LuaLift

variable {π : Equiv.Perm Nat}

namespace Recognition

variable {α β γ : Type}

def map (g : α → β) : Recognition α → Recognition β
  | none => none
  | near m => near m
  | full a => full (g a)

theorem orNone_map (g : α → β) (o : Option α) (k : β → Recognition γ) :
    orNone (o.map g) k = orNone o fun a => k (g a) := by
  cases o <;> rfl

theorem orNear_map (g : α → β) (m : Mismatch) (o : Option α) (k : β → Recognition γ) :
    orNear m (o.map g) k = orNear m o fun a => k (g a) := by
  cases o <;> rfl

theorem map_orNone (g : β → γ) (o : Option α) (k : α → Recognition β) :
    (orNone o k).map g = orNone o fun a => (k a).map g := by
  cases o <;> rfl

theorem map_orNear (g : β → γ) (m : Mismatch) (o : Option α) (k : α → Recognition β) :
    (orNear m o k).map g = orNear m o fun a => (k a).map g := by
  cases o <;> rfl

theorem map_provided (g : β → γ) (m : Mismatch) (b : Bool) (k : Recognition β) :
    (provided m b k).map g = provided m b (k.map g) := by
  cases b <;> rfl

end Recognition

def NumericLoop.Counters.renumber (π : Equiv.Perm Nat) (c : NumericLoop.Counters) : NumericLoop.Counters :=
  { c with latch := π c.latch }

def NumericLoop.renumber (π : Equiv.Perm Nat) (n : NumericLoop) : NumericLoop :=
  { n with
    latch := π n.latch
    preheader := π n.preheader
    bodyEntry := π n.bodyEntry
    follow := π n.follow }

def GenericLoop.Iteration.renumber (π : Equiv.Perm Nat) (i : GenericLoop.Iteration) : GenericLoop.Iteration :=
  { i with latch := π i.latch }

def GenericLoop.renumber (π : Equiv.Perm Nat) (g : GenericLoop) : GenericLoop :=
  { g with
    header := π g.header
    latch := π g.latch
    preheader := π g.preheader
    bodyEntry := π g.bodyEntry
    follow := π g.follow }

section Idioms

variable {p q : Proto} (hr : p.Renumbers π q) {f f' : Flow} (hf : f.Renumbers π f')
include hr

theorem Proto.Renumbers.readCount (c : Cell) : q.readCount c = p.readCount c := by
  apply hr.totalBlocks
  intro b
  rw [Block.renumber, Jump.condition?_map]

theorem Proto.Renumbers.dropLast (b : BlockId) (k : Nat) : (p.dropLast b k).Renumbers π (q.dropLast (π b) k) := by
  apply hr.modify
  · intro c
    rfl
  · intro c
    rfl

theorem Proto.Renumbers.dropFirst (b : BlockId) : (p.dropFirst b).Renumbers π (q.dropFirst (π b)) := by
  apply hr.modify
  · intro c
    rfl
  · intro c
    rfl

theorem Proto.Renumbers.clear (b : BlockId) : (p.clear b).Renumbers π (q.clear (π b)) := by
  apply hr.modify
  · intro c
    rfl
  · intro c
    rfl

omit hr in
theorem Jump.targets_eq_singleton (j : Jump) (b : BlockId) : (j.map π).targets = [π b] ↔ j.targets = [b] := by
  rw [targets_map, ← List.map_singleton, (List.map_injective_iff.2 π.injective).eq_iff]

namespace NumericLoop

theorem counters?_renumber (slotOf : SlotOf) (l : NaturalLoop) :
    counters? slotOf q (l.renumber π) = (counters? slotOf p l).map (.renumber π) := by
  have hbody : q.body (l.renumber π).header = p.body l.header := hr.body _
  have hjump : (q.jump (l.renumber π).header).condition? = (p.jump l.header).condition? := by
    rw [NaturalLoop.renumber, hr.jump, Jump.condition?_map]
  simp only [counters?, NaturalLoop.singleLatch?_renumber, hbody, hjump]
  cases l.singleLatch? with
  | none => rfl
  | some latch =>
    simp only [Option.map_some, Option.bind_eq_bind, Option.bind_some, hr.blocks]
    cases p.blocks[latch]? with
    | none => rfl
    | some block =>
      have htargets : (block.renumber π).jump.targets = [(l.renumber π).header] ↔ block.jump.targets = [l.header] :=
        Jump.targets_eq_singleton block.jump l.header
      simp only [Option.map_some, Option.bind_some, htargets, show increment? (block.renumber π) = increment? block from rfl, Option.map_bind, Function.comp_def]
      rfl

include hf

theorem recognize_renumber (slotOf : SlotOf) (checkReads : Bool) (l : NaturalLoop) :
    recognize slotOf checkReads q f' (l.renumber π) = (recognize slotOf checkReads p f l).map (.renumber π) := by
  have hjump : q.jump (l.renumber π).header = (p.jump l.header).map π := hr.jump _
  simp only [recognize, counters?_renumber hr, NaturalLoop.preheader?_renumber l hr hf, hr.readCount, hjump,
    NaturalLoop.exitTest?_renumber, Recognition.orNone_map, Recognition.orNear_map, Recognition.map_orNone,
    Recognition.map_orNear, Recognition.map_provided, Counters.renumber, ExitTest.renumber, hr.body]
  refine congrArg _ (funext fun c => congrArg _ (funext fun exit => congrArg _ (congrArg _ (congrArg _
    (funext fun v => congrArg _ (funext fun b => congrArg _ (funext fun init => ?_)))))))
  obtain ⟨values, k⟩ := init
  rcases values with _ | ⟨start, _ | ⟨stop, _ | ⟨step, _ | ⟨x, rest⟩⟩⟩⟩
  case cons.cons.cons.nil =>
    simp only [Recognition.map_provided]
    rfl
  all_goals rfl

omit hf in
theorem strip_renumber (n : NumericLoop) : (n.strip p).Renumbers π ((n.renumber π).strip q) := by
  apply Proto.Renumbers.dropLast
  apply Proto.Renumbers.dropFirst
  exact hr.dropLast _ _

end NumericLoop

namespace GenericLoop

theorem iteration?_renumber (slotOf : SlotOf) (l : NaturalLoop) :
    iteration? slotOf q (l.renumber π) = (iteration? slotOf p l).map (.renumber π) := by
  have hbody : q.body (l.renumber π).header = p.body l.header := hr.body _
  have hjump : (q.jump (l.renumber π).header).condition? = (p.jump l.header).condition? := by
    rw [NaturalLoop.renumber, hr.jump, Jump.condition?_map]
  simp only [iteration?, NaturalLoop.singleLatch?_renumber, hbody, hjump]
  cases l.singleLatch? with
  | none => rfl
  | some latch =>
    simp only [Option.map_some, Option.bind_eq_bind, Option.bind_some, hr.blocks]
    cases p.blocks[latch]? with
    | none => rfl
    | some block =>
      have htargets : (block.renumber π).jump.targets = [(l.renumber π).header] ↔ block.jump.targets = [l.header] :=
        Jump.targets_eq_singleton block.jump l.header
      simp only [Option.map_some, Option.bind_some, htargets, show (block.renumber π).body = block.body from rfl,
        Option.map_bind, Function.comp_def]
      rfl

include hf

theorem recognize_renumber (slotOf : SlotOf) (l : NaturalLoop) :
    recognize slotOf q f' (l.renumber π) = (recognize slotOf p f l).map (.renumber π) := by
  have hjump : q.jump (l.renumber π).header = (p.jump l.header).map π := hr.jump _
  simp only [recognize, iteration?_renumber hr, NaturalLoop.preheader?_renumber l hr hf, hr.readCount, hjump,
    NaturalLoop.exitTest?_renumber, Recognition.orNone_map, Recognition.orNear_map, Recognition.map_orNone,
    Recognition.map_orNear, Recognition.map_provided, Iteration.renumber, ExitTest.renumber, hr.body]
  rfl

omit hf in
theorem strip_renumber (g : GenericLoop) : (g.strip p).Renumbers π ((g.renumber π).strip q) := by
  apply Proto.Renumbers.dropLast
  apply Proto.Renumbers.clear
  exact hr.dropLast _ _

end GenericLoop

end Idioms

namespace Classified

structure Renumbers (π : Equiv.Perm Nat) (c c' : Classified) : Prop where
  proto : c.proto.Renumbers π c'.proto
  locals : c'.locals = c.locals
  loops : c'.loops = c.loops.map (.renumber π)
  notes : c'.notes = c.notes.map (.renumber π)

namespace Renumbers

variable {c c' : Classified} (h : c.Renumbers π c') {f f' : Flow} (hf : f.Renumbers π f') {l : NaturalLoop}
include h

theorem add (shape : LoopShape) : (c.add l shape).Renumbers π (c'.add (l.renumber π) (shape.renumber π)) where
  proto := h.proto
  locals := h.locals
  loops := by
    simp only [Classified.add, h.loops, List.map_append]
    rfl
  notes := h.notes

theorem note (m : Mismatch) : (c.note l m).Renumbers π (c'.note (l.renumber π) m) where
  proto := h.proto
  locals := h.locals
  loops := h.loops
  notes := by
    simp only [Classified.note, h.notes, List.map_append]
    rfl

theorem rewrite {p q : Proto} (hr : p.Renumbers π q) (t : Locals) :
    ({ c with proto := p, locals := t } : Classified).Renumbers π { c' with proto := q, locals := t } where
  proto := hr
  locals := rfl
  loops := h.loops
  notes := h.notes

variable (hrooted : f.Rooted) (hl : l ∈ f.loops f.dominance)
include hf hrooted hl

theorem addPlain : (c.addPlain f l).Renumbers π (c'.addPlain f' (l.renumber π)) := by
  rw [Classified.addPlain, Classified.addPlain, NaturalLoop.plainShape_renumber h.proto hf hrooted hl]
  exact h.add _

theorem numeric (n : NumericLoop) : ((c.numeric? l n).getD (c.addPlain f l)).Renumbers π
    ((c'.numeric? (l.renumber π) (n.renumber π)).getD (c'.addPlain f' (l.renumber π))) := by
  have hcells : varsOf? [(n.renumber π).variableCell] = varsOf? [n.variableCell] := rfl
  rw [numeric?, numeric?, hcells, h.locals]
  cases hv : varsOf? [n.variableCell] with
  | none => exact h.addPlain hf hrooted hl
  | some vs =>
    obtain ⟨v, rfl, -⟩ := varsOf?_singleton hv
    exact (h.rewrite (NumericLoop.strip_renumber h.proto n) _).add _

theorem generic (g : GenericLoop) : ((c.generic? l g).getD (c.addPlain f l)).Renumbers π
    ((c'.generic? (l.renumber π) (g.renumber π)).getD (c'.addPlain f' (l.renumber π))) := by
  have hcells : varsOf? (g.renumber π).variableCells = varsOf? g.variableCells := rfl
  rw [generic?, generic?, hcells, h.locals]
  cases varsOf? g.variableCells with
  | none => exact h.addPlain hf hrooted hl
  | some vs => exact (h.rewrite (GenericLoop.strip_renumber h.proto g) _).add _

theorem step (recognizeFor : Bool) :
    (c.step recognizeFor f l).Renumbers π (c'.step recognizeFor f' (l.renumber π)) := by
  cases recognizeFor with
  | false => exact h.addPlain hf hrooted hl
  | true =>
    simp only [Classified.step, if_true, h.locals, NumericLoop.recognize_renumber h.proto hf,
      GenericLoop.recognize_renumber h.proto hf]
    cases NumericLoop.recognize c.locals.slotOf true c.proto f l with
    | full n => exact h.numeric hf hrooted hl n
    | near m =>
      cases GenericLoop.recognize c.locals.slotOf c.proto f l with
      | full g => exact h.generic hf hrooted hl g
      | near _ => exact (h.note m).addPlain hf hrooted hl
      | none => exact (h.note m).addPlain hf hrooted hl
    | none =>
      cases GenericLoop.recognize c.locals.slotOf c.proto f l with
      | full g => exact h.generic hf hrooted hl g
      | near m => exact (h.note m).addPlain hf hrooted hl
      | none => exact h.addPlain hf hrooted hl

omit h hl in
theorem foldl (recognizeFor : Bool) {ls : List NaturalLoop} (hls : ∀ l ∈ ls, l ∈ f.loops f.dominance)
    {c c' : Classified} (h : c.Renumbers π c') : (ls.foldl (Classified.step recognizeFor f) c).Renumbers π
      ((ls.map (.renumber π)).foldl (Classified.step recognizeFor f') c') := by
  induction ls generalizing c c' with
  | nil => exact h
  | cons l ls ih =>
    apply ih
    · intro l' hl'
      exact hls l' (List.mem_cons_of_mem _ hl')
    · exact h.step hf hrooted (hls l List.mem_cons_self) recognizeFor

end Renumbers

theorem headers_step (recognizeFor : Bool) (f : Flow) (c : Classified) (l : NaturalLoop) :
    (c.step recognizeFor f l).loops.map (·.header) = c.loops.map (·.header) ++ [l.header] := by
  cases recognizeFor with
  | false => simp [step, addPlain, add]
  | true =>
    rcases step_cases f c l with ⟨n, v, -, -, -, hloops⟩ | ⟨g, vs, -, -, -, hloops⟩ | ⟨-, hloops⟩
    all_goals simp [hloops]

theorem headers_foldl (recognizeFor : Bool) (f : Flow) (ls : List NaturalLoop) (c : Classified) :
    (ls.foldl (step recognizeFor f) c).loops.map (·.header) = c.loops.map (·.header) ++ ls.map (·.header) := by
  induction ls generalizing c with
  | nil => simp
  | cons l ls ih => rw [List.foldl_cons, ih, headers_step, List.map_cons, List.append_assoc, List.singleton_append]

end Classified

theorem find?_eq_of_perm {α : Type} {key : α → Nat} {l l' : List α} (h : l.Perm l') (hn : (l.map key).Nodup)
    (k : Nat) : l.find? (key · = k) = l'.find? (key · = k) := by
  cases hl : l.find? (key · = k) with
  | none =>
    rw [List.find?_eq_none] at hl
    apply (List.find?_eq_none.2 _).symm
    intro a ha
    exact hl a (h.mem_iff.2 ha)
  | some a =>
    have ha := List.mem_of_find?_eq_some hl
    have hak := List.find?_some hl
    cases hl' : l'.find? (key · = k) with
    | none => exact absurd hak (List.find?_eq_none.1 hl' a (h.mem_iff.1 ha))
    | some b =>
      have hb := h.mem_iff.2 (List.mem_of_find?_eq_some hl')
      have hbk := List.find?_some hl'
      simp only [decide_eq_true_eq] at hak hbk
      rw [List.inj_on_of_nodup_map hn ha hb (hak.trans hbk.symm)]

namespace Proto.Renumbers

variable {p q : Proto} (hr : p.Renumbers π q) {f f' : Flow} (hf : f.Renumbers π f') (hrooted : f.Rooted)
include hr hf hrooted

theorem classify (t : Locals) (recognizeFor : Bool) :
    (p.classify f t recognizeFor).proto.Renumbers π (q.classify f' t recognizeFor).proto ∧
      (q.classify f' t recognizeFor).locals = (p.classify f t recognizeFor).locals ∧
      (q.classify f' t recognizeFor).notes = (p.classify f t recognizeFor).notes.map (.renumber π) ∧
      ∀ b, (q.classify f' t recognizeFor).loops.find? (·.header = π b) =
        ((p.classify f t recognizeFor).loops.find? (·.header = b)).map (.renumber π) := by
  have hstart : Classified.Renumbers π ⟨p, t, [], []⟩ ⟨q, t, [], []⟩ := ⟨hr, rfl, rfl, rfl⟩
  have hfold := hstart.foldl hf hrooted recognizeFor fun _ h => h
  rw [← hf.loops] at hfold
  refine ⟨hfold.proto, hfold.locals, hfold.notes, fun b => ?_⟩
  have hnodup : (((f.loops f.dominance).foldl (Classified.step recognizeFor f) ⟨p, t, [], []⟩).loops.map
      (·.header)).Nodup := by
    rw [Classified.headers_foldl]
    exact f.nodup_headers
  have hnodup' : (((f'.loops f'.dominance).foldl (Classified.step recognizeFor f') ⟨q, t, [], []⟩).loops.map
      (·.header)).Nodup := by
    rw [Classified.headers_foldl]
    exact f'.nodup_headers
  simp only [Proto.classify]
  rw [← find?_eq_of_perm (List.mergeSort_perm _ _).symm hnodup, ← find?_eq_of_perm (List.mergeSort_perm _ _).symm hnodup',
    hfold.loops, List.find?_map]
  congr 2
  funext l
  simp [ShapedLoop.renumber]

end Proto.Renumbers

end LuaLift
