import LuaLift.Proofs.Renumber.Classify
import LuaLift.Proofs.Slots.Inlining
import Mathlib.Data.Option.Defs

namespace LuaLift

variable {π : Equiv.Perm Nat}

def Permutes {α : Type} (π : Equiv.Perm Nat) (l m : List α) : Prop := ∀ b, m[π b]? = l[b]?

namespace Permutes

variable {α : Type} {l l' m m' : List α}

theorem set (h : Permutes π l m) (b : Nat) (a : α) : Permutes π (l.set b a) (m.set (π b) a) := by
  intro c
  rw [List.getElem?_set', List.getElem?_set', h c]
  simp

theorem replicate {n : Nat} (hn : ∀ b, π b < n ↔ b < n) (a : α) :
    Permutes π (List.replicate n a) (List.replicate n a) := by
  intro b
  simp [List.getElem?_replicate, hn]

theorem eq_iff (h : Permutes π l m) (h' : Permutes π l' m') : m' = m ↔ l' = l := by
  constructor
  · rintro rfl
    apply List.ext_getElem?
    intro b
    rw [← h, ← h']
  · rintro rfl
    apply List.ext_getElem?
    intro c
    obtain ⟨b, rfl⟩ := π.surjective c
    rw [h, h']

end Permutes

structure Liveness.Renumbers (π : Equiv.Perm Nat) (l l' : Liveness) : Prop where
  liveIn : Permutes π l.liveIn l'.liveIn
  liveOut : Permutes π l.liveOut l'.liveOut

theorem Block.livePoints_renumber (kind : CellKind) (b : Block) (out : NatSet) :
    (b.renumber π).livePoints kind out = b.livePoints kind out := by
  simp [livePoints, renumber]

namespace Liveness.Renumbers

variable {l l' : Liveness} (h : l.Renumbers π l')
include h

theorem before (b : BlockId) : l'.before (π b) = l.before b := by
  rw [Liveness.before, Liveness.before, h.liveIn]

theorem after (b : BlockId) : l'.after (π b) = l.after b := by
  rw [Liveness.after, Liveness.after, h.liveOut]

variable {p q : Proto} (hr : p.Renumbers π q) {f f' : Flow} (hf : f.Renumbers π f') (kind : CellKind)
include hr

theorem points (b : BlockId) : l'.points kind q (π b) = l.points kind p b := by
  rw [Liveness.points, Liveness.points, hr.blocks, h.after]
  cases p.blocks[b]? with
  | none => rfl
  | some block => simp only [Option.map_some, Block.livePoints_renumber]

include hf

theorem update (b : BlockId) : (update kind p f l b).Renumbers π (update kind q f' l' (π b)) := by
  have hout : (f'.successors (π b)).foldl (fun s c => s ∪ l'.before c) ∅ =
      (f.successors b).foldl (fun s c => s ∪ l.before c) ∅ := by
    rw [hf.successors, List.foldl_map]
    simp only [h.before]
  rw [Liveness.update, Liveness.update, hr.blocks, hout]
  cases p.blocks[b]? with
  | none => exact h
  | some block =>
    simp only [Option.map_some, Block.livePoints_renumber]
    exact ⟨h.liveIn.set b _, h.liveOut.set b _⟩

theorem sweep : (sweep kind p f l).Renumbers π (sweep kind q f' l') := by
  rw [Liveness.sweep, Liveness.sweep, hf.postorder]
  generalize f.walk.postorder = bs
  induction bs generalizing l l' with
  | nil => exact h
  | cons b bs ih => exact ih (h.update hr hf kind b)

omit h in
theorem settle (n : Nat) {l l' : Liveness} (h : l.Renumbers π l') :
    Option.Rel (Renumbers π) (settle kind p f n l) (settle kind q f' n l') := by
  induction n generalizing l l' with
  | zero => exact .none
  | succ n ih =>
    have hs := h.sweep hr hf kind
    have heq : Liveness.sweep kind q f' l' = l' ↔ Liveness.sweep kind p f l = l := by
      have hin := h.liveIn.eq_iff hs.liveIn
      have hout := h.liveOut.eq_iff hs.liveOut
      generalize Liveness.sweep kind q f' l' = m' at hin hout
      generalize Liveness.sweep kind p f l = m at hin hout
      cases l; cases l'; cases m; cases m'
      simp only [Liveness.mk.injEq] at hin hout ⊢
      rw [hin, hout]
    rw [Liveness.settle, Liveness.settle]
    simp only [heq]
    split
    · exact .some hs
    · exact ih hs

end Liveness.Renumbers

structure Protected.Renumbers (π : Equiv.Perm Nat) (r r' : Protected) : Prop where
  contains : ∀ b s, r'.contains (π b) s = r.contains b s

section Protected

variable {p q : Proto} (hr : p.Renumbers π q) {f f' : Flow} (hf : f.Renumbers π f')
include hr

theorem Proto.Renumbers.debugNames : q.debugNames = p.debugNames := by rw [hr.apart]

theorem Protected.ofBlock_renumber (b : Block) :
    ofBlock q (b.renumber π) = (ofBlock p b).map fun e => (π e.1, e.2) := by
  simp only [ofBlock, hr.debugNames, List.map_map]
  rfl

include hf

theorem loopVariableCopies_renumber :
    loopVariableCopies q f' = (loopVariableCopies p f).map fun e => (π e.1, e.2) := by
  rw [loopVariableCopies, loopVariableCopies, hf.loops, List.filterMap_map, List.map_filterMap]
  congr 1
  funext l
  rw [Function.comp_apply, NumericLoop.recognize_renumber hr hf]
  cases NumericLoop.recognize slotOfSlot false p f l with
  | full n =>
    simp only [Recognition.map, NumericLoop.renumber]
    cases slotOfSlot n.variableCell <;> rfl
  | _ => rfl

theorem Protected.of_renumber : (Protected.of p f).Renumbers π (.of q f') where
  contains b s := by
    have hblocks : (π b, s) ∈ q.blocks.flatMap (ofBlock q) ↔ (b, s) ∈ p.blocks.flatMap (ofBlock p) := by
      rw [(hr.perm.flatMap_right _).mem_iff, List.flatMap_map]
      simp [ofBlock_renumber hr]
    have hpairs : (π b, s) ∈ (Protected.of q f').pairs ↔ (b, s) ∈ (Protected.of p f).pairs := by
      simp only [Protected.of, List.mem_append, hblocks, loopVariableCopies_renumber hr hf]
      simp
    simp only [Protected.contains, List.contains_eq_mem, hpairs]
    rw [Protected.of, Protected.of, hr.parameters]

end Protected

theorem Jump.take_map (s : Slot) (e : Expr) (j : Jump) : (j.map π).take s e = (j.take s e).map π :=
  mapCondition_map _ _ _

theorem Jump.accepts_map (out : NatSet) (s : Slot) (e : Expr) (j : Jump) :
    (j.map π).accepts out s e = j.accepts out s e := by
  rw [accepts, accepts, condition?_map]

theorem deadAfter_map (out : NatSet) (j : Jump) : deadAfter out (j.map π) = deadAfter out j := by
  funext s rest
  induction rest with
  | nil => rw [deadAfter, deadAfter, Jump.reads_map]
  | cons t rest ih => rw [deadAfter, deadAfter, ih]

theorem absorb_map {α : Type} (accepts : Slot → Expr → α → Bool) (take : Slot → Expr → α → α) (g : α → α)
    (ha : ∀ s e c, accepts s e (g c) = accepts s e c) (ht : ∀ s e c, take s e (g c) = g (take s e c))
    (ws : List Stmt) (c : α) : absorb accepts take ws (g c) =
      { absorb accepts take ws c with consumer := g (absorb accepts take ws c).consumer } := by
  induction ws generalizing c with
  | nil => rfl
  | cons w ws ih =>
    rw [absorb, absorb]
    cases w.singleSlot? with
    | none => rfl
    | some e =>
      simp only [ha, ht]
      split
      · rw [ih]
      · rfl

namespace Block

theorem inlineStmts_map (guarded : Slot → Bool) (out : NatSet) (j : Jump) (done todo : List Stmt) :
    inlineStmts guarded out (j.map π) done todo = inlineStmts guarded out j done todo := by
  induction todo generalizing done with
  | nil => rfl
  | cons t rest ih => simp only [inlineStmts, deadAfter_map, ih]

theorem inline_renumber (guarded : Slot → Bool) (out : NatSet) (b : Block) :
    (b.renumber π).inline guarded out = (b.inline guarded out).renumber π := by
  have haccepts (s : Slot) (e : Expr) (j : Jump) :
      (!guarded s && (j.map π).accepts out s e) = (!guarded s && j.accepts out s e) := by
    rw [Jump.accepts_map]
  have habsorb := absorb_map (fun s e j => !guarded s && Jump.accepts out s e j) Jump.take (Jump.map π) haccepts
    fun s e j => j.take_map s e
  simp only [inline, inlineCounted, renumber, inlineStmts_map, habsorb]

end Block

theorem Proto.Renumbers.inline {p q : Proto} (hr : p.Renumbers π q) {l l' : Liveness} (hl : l.Renumbers π l')
    {r r' : Protected} (hp : r.Renumbers π r') : (p.inline l r).1.Renumbers π (q.inline l' r').1 := by
  rw [Proto.fst_inline, Proto.fst_inline]
  apply hr.mapBlocks
  · intro b
    split <;> rfl
  · intro b _
    have hcontains : r'.contains (π b.id) = r.contains b.id := funext (hp.contains b.id)
    have hid : (b.renumber π).id = π b.id := rfl
    rw [hid, hr.flow.isReachable, hcontains, hl.after]
    split
    · exact b.inline_renumber _ _
    · rfl

end LuaLift
