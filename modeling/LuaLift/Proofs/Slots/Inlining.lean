import LuaLift.Proofs.Data.Total
import LuaLift.Proofs.Syntax.Accesses
import LuaLift.Slots.Inline
import Mathlib.Logic.Relation

/-!
The order of evaluation under inlining. A value moves behind what its consumer evaluates first; nothing
that a call could notice gets behind a call in that way. The other way round there is no such promise: a
call moves behind reads and lengths, and behind a test that may keep it from being made.
-/

namespace LuaLift

/-- Neighbours change places, but no call comes in front of an access that it could change. -/
inductive Reorders : List Access → List Access → Prop
  | refl (l : List Access) : Reorders l l
  | swap (l r : List Access) {a b : Access} (h : b.isCall = true → a.isGuarded = false) :
      Reorders (l ++ a :: b :: r) (l ++ b :: a :: r)
  | trans {l m r : List Access} (h : Reorders l m) (h' : Reorders m r) : Reorders l r

namespace Reorders

variable {k l l' r r' : List Access}

theorem append_left (k : List Access) (h : Reorders l l') : Reorders (k ++ l) (k ++ l') := by
  induction h with
  | refl l => exact .refl _
  | swap l r h => simpa using Reorders.swap (k ++ l) r h
  | trans _ _ ih ih' => exact ih.trans ih'

theorem append_right (k : List Access) (h : Reorders l l') : Reorders (l ++ k) (l' ++ k) := by
  induction h with
  | refl l => exact .refl _
  | swap l r h => simpa using Reorders.swap l (r ++ k) h
  | trans _ _ ih ih' => exact ih.trans ih'

theorem behind (a : Access) (h : ∀ b ∈ l, b.isCall = true → a.isGuarded = false) :
    Reorders (a :: l) (l ++ [a]) := by
  induction l with
  | nil => exact .refl _
  | cons b l ih =>
    have hswap : Reorders (a :: b :: l) (b :: a :: l) := .swap [] l (h b (.head _))
    exact hswap.trans ((ih fun c hc => h c (.tail _ hc)).append_left [b])

theorem comm (h : ∀ a ∈ l, ∀ b ∈ r, b.isCall = true → a.isGuarded = false) : Reorders (l ++ r) (r ++ l) := by
  induction l with
  | nil => simpa using Reorders.refl r
  | cons a l ih =>
    have htail : Reorders (a :: (l ++ r)) (a :: (r ++ l)) :=
      (ih fun a ha => h a (.tail _ ha)).append_left [a]
    have hhead : Reorders (a :: r ++ l) ((r ++ [a]) ++ l) := (behind a (h a (.head _))).append_right l
    simpa using htail.trans (by simpa using hhead)

theorem pairwise_zipIdx (l : List Access) (n : Nat) :
    (l.zipIdx n).Pairwise fun x y => x.1.isCall = true → y.1.isGuarded = true → x.2 < y.2 := by
  induction l generalizing n with
  | nil => exact .nil
  | cons a l ih =>
    refine List.pairwise_cons.2 ⟨fun x hx _ _ => ?_, ih (n + 1)⟩
    have := List.le_snd_of_mem_zipIdx hx
    exact this

theorem exists_places (h : Reorders l l') : ∃ m : List (Access × Nat), m.Perm l.zipIdx ∧ m.map Prod.fst = l' ∧
    m.Pairwise fun x y => x.1.isCall = true → y.1.isGuarded = true → x.2 < y.2 := by
  induction h with
  | refl l => exact ⟨l.zipIdx, .refl _, List.zipIdx_map_fst .., pairwise_zipIdx l 0⟩
  | swap l r h =>
    next a b =>
    have hplaces := pairwise_zipIdx (l ++ a :: b :: r) 0
    simp only [List.zipIdx_append, List.zipIdx_cons] at hplaces ⊢
    refine ⟨_, (List.Perm.swap _ _ _).append_left _, by simp, ?_⟩
    rw [List.pairwise_append] at hplaces ⊢
    obtain ⟨hl, hr, hcross⟩ := hplaces
    simp only [List.pairwise_cons, List.mem_cons, forall_eq_or_imp] at hr hcross ⊢
    refine ⟨hl, ⟨⟨fun hb ha => ?_, hr.2.1⟩, hr.1.2, hr.2.2⟩, fun x hx => ?_⟩
    · rw [h hb] at ha
      cases ha
    · exact ⟨(hcross x hx).2.1, (hcross x hx).1, (hcross x hx).2.2⟩
  -- A place behind the second part is a place in the middle, and that one has a place before the first part.
  | trans h h' ih ih' =>
    next l k r =>
    obtain ⟨m, hm, hk, hpairs⟩ := ih
    obtain ⟨n, hn, hr, hpairs'⟩ := ih'
    subst hk
    have hget {x : Access × Nat} (hx : x ∈ n) : ∃ y, m[x.2]? = some y ∧ y.1 = x.1 := by
      have := List.mem_zipIdx_iff_getElem?.1 (hn.mem_iff.1 hx)
      rwa [List.getElem?_map, Option.map_eq_some_iff] at this
    refine ⟨n.map fun x => (x.1, (m[x.2]?.map Prod.snd).getD 0), ?_, by rwa [List.map_map], ?_⟩
    · refine ((hn.map _).trans (.of_eq ?_)).trans hm
      refine List.ext_getElem? fun i => ?_
      cases hi : m[i]? with
      | none => simp [hi]
      | some y => simp [hi]
    · rw [List.pairwise_map]
      refine hpairs'.imp_of_mem fun {x y} hx hy hxy hcall hguarded => ?_
      obtain ⟨x', hx', hxe⟩ := hget hx
      obtain ⟨y', hy', hye⟩ := hget hy
      have hlt := hxy hcall hguarded
      obtain ⟨hxl, rfl⟩ := List.getElem?_eq_some_iff.1 hx'
      obtain ⟨hyl, rfl⟩ := List.getElem?_eq_some_iff.1 hy'
      have := List.pairwise_iff_getElem.1 hpairs x.2 y.2 hxl hyl hlt (by rwa [hxe]) (by rwa [hye])
      simpa [hx', hy'] using this

end Reorders

namespace Access

def isSlot : Access → Bool
  | slot _ => true
  | _ => false

end Access

def Access.others (l : List Access) : List Access := l.filter (!·.isSlot)

def Expr.effects (es : List Expr) : List Access := Access.others (accessesList es)

namespace Expr

theorem mem_accessesList {es : List Expr} {a : Access} :
    a ∈ accessesList es ↔ ∃ n ∈ evaluatedList es, n.access? = some a := List.mem_filterMap

theorem slot_mem_nodesList {es : List Expr} {s : Slot} (h : 0 < total (·.count ⟨.slot, s⟩) es) :
    slot s ∈ nodesList es := by
  rw [total_count, List.count_pos_iff, ← cells_nodesList] at h
  obtain ⟨n, hn, hc⟩ := List.mem_filterMap.1 h
  rwa [ofCell_of_cell? hc] at hn

theorem slot_not_mem_captures {es : List Expr} (h : plainCaptures es = true) {s : Slot}
    (hfree : ∀ e ∈ es, s ∉ e.capturedSlots) {p : Nat} {cs : List Expr} (hc : closure p cs ∈ nodesList es) :
    slot s ∉ nodesList cs := by
  intro hs
  have hs := mem_of_mem_nodesList (plainCaptures_iff.1 h p cs hc) hs
  rw [nodesList_eq, List.mem_flatMap] at hc
  obtain ⟨e, he, hc⟩ := hc
  apply hfree e he
  exact List.mem_flatMap.2 ⟨_, hc, List.mem_filterMap.2 ⟨_, hs, rfl⟩⟩

theorem slot_mem_accessesList {es : List Expr} (h : plainCaptures es = true) {s : Slot}
    (hread : slot s ∈ nodesList es) (hfree : ∀ e ∈ es, s ∉ e.capturedSlots) : .slot s ∈ accessesList es := by
  rcases evaluated_or_capturedList es hread with he | ⟨p, cs, hc, hs⟩
  · exact mem_accessesList.2 ⟨_, he, rfl⟩
  · exact absurd hs (slot_not_mem_captures h hfree hc)

theorem isCall_of_access? {e : Expr} {a : Access} (h : e.access? = some a) (ha : a.isCall = true) :
    e.isCall = true := by
  unfold access? at h
  split at h <;> cases h <;> first | rfl | cases ha

theorem access?_takeWhile {s : Slot} {ns : List Expr} {l r : List Access}
    (h : ns.filterMap access? = l ++ .slot s :: r) (hl : .slot s ∉ l) :
    (ns.takeWhile fun n => n.slot? != some s).filterMap access? = l := by
  induction ns generalizing l with
  | nil => simp at h
  | cons n ns ih =>
    by_cases hn : n.slot? = some s
    · obtain rfl : n = slot s := by
        unfold slot? at hn
        split at hn <;> cases hn
        rfl
      cases l with
      | nil => simp [slot?]
      | cons a l =>
        simp only [List.filterMap_cons, access?, List.cons_append, List.cons.injEq] at h
        simp [h.1] at hl
    · rw [List.takeWhile_cons_of_pos (by simpa using hn)]
      cases ha : n.access? with
      | none =>
        rw [List.filterMap_cons_none ha] at h ⊢
        exact ih h hl
      | some a =>
        rw [List.filterMap_cons_some ha] at h ⊢
        cases l with
        | nil =>
          simp only [List.nil_append, List.cons.injEq] at h
          rw [h.1] at ha
          refine absurd ?_ hn
          unfold access? at ha
          split at ha <;> cases ha
          rfl
        | cons b l =>
          simp only [List.cons_append, List.cons.injEq] at h
          rw [h.1, ih h.2 fun hm => hl (.tail _ hm)]

theorem callsBefore_of_mem {s : Slot} {es : List Expr} {l r : List Access}
    (h : accessesList es = l ++ .slot s :: r) (hl : .slot s ∉ l) {a : Access} (ha : a ∈ l)
    (hcall : a.isCall = true) : callsBefore s es = true := by
  rw [← access?_takeWhile h hl] at ha
  obtain ⟨n, hn, hna⟩ := List.mem_filterMap.1 ha
  exact List.any_eq_true.2 ⟨n, hn, isCall_of_access? hna hcall⟩

theorem readsMutableState_of_mem {e : Expr} {a : Access} (h : a ∈ e.accesses) (ha : a.isGuarded = true) :
    e.readsMutableState = true := by
  obtain ⟨n, hn, hna⟩ := List.mem_filterMap.1 h
  refine List.any_eq_true.2 ⟨n, evaluated_subset e hn, ?_⟩
  unfold access? at hna
  split at hna <;> cases hna <;> first | rfl | cases ha

end Expr

theorem canInline_reorders {s : Slot} {e : Expr} {es es' : List Expr} {dead : Bool} {o : Option Expr}
    (h : canInline s e es dead = true) (hes : Expr.plainCaptures es = true)
    (ho : Offered s (some e) (Expr.accessesList es) (Expr.accessesList es') o) :
    Reorders (Expr.effects [e] ++ Expr.effects es) (Expr.effects es') := by
  simp only [canInline, Bool.and_eq_true, beq_iff_eq, Bool.not_eq_true', List.any_eq_false,
    List.contains_eq_mem, decide_eq_true_eq] at h
  obtain ⟨⟨⟨⟨hcount, hfree⟩, -⟩, hcalls⟩, -⟩ := h
  have hread := Expr.slot_mem_nodesList (hcount ▸ Nat.one_pos)
  obtain ⟨-, l, r, hl, hnone, hl'⟩ := ho.of_mem (Expr.slot_mem_accessesList hes hread hfree)
  have hsplit : Expr.effects es = Access.others l ++ Access.others r := by
    rw [Expr.effects, hl]
    exact List.filter_append ..
  have hsplit' : Expr.effects es' = Access.others l ++ Expr.effects [e] ++ Access.others r := by
    rw [Expr.effects, hl', List.append_assoc]
    simp [Access.others, Expr.effects]
  rw [hsplit, hsplit', ← List.append_assoc]
  refine (Reorders.comm fun a ha b hb hcall => ?_).append_right _
  have ha : a ∈ e.accesses := by simpa using (List.mem_filter.1 ha).1
  have hb := (List.mem_filter.1 hb).1
  cases hguarded : a.isGuarded with
  | false => rfl
  | true =>
    simp [Expr.readsMutableState_of_mem ha hguarded, Expr.callsBefore_of_mem hl hnone hb hcall] at hcalls

theorem Stmt.operands_of_singleSlot? {w : Stmt} {s : Slot} {e : Expr} (h : w.singleSlot? = some (s, e)) :
    w.operands = [e] := by
  unfold singleSlot? at h
  split at h <;> cases h
  rfl

namespace Stmt

def own : Stmt → List Access
  | call _ as _ => [.call as.length]
  | _ => []

def effects (s : Stmt) : List Access := Expr.effects s.operands ++ s.own

theorem own_of_singleSlot? {w : Stmt} {s : Slot} {e : Expr} (h : w.singleSlot? = some (s, e)) : w.own = [] := by
  unfold singleSlot? at h
  split at h <;> cases h
  rfl

theorem own_take (s : Slot) (e : Expr) (t : Stmt) : (t.take s e).own = t.own := by
  cases t <;> simp [take, substitute, own, Expr.length_substituteList]

end Stmt

def Jump.effects (j : Jump) : List Access := Expr.effects j.condition?.toList

/-- A write goes into the statement, or into the jump, right behind it. -/
inductive Block.Merges (guarded : Slot → Bool) (out : NatSet) : Block → Block → Prop
  | stmt {b : Block} (before rest : List Stmt) {w t : Stmt} {s : Slot} {e : Expr}
      (hb : b.body = before ++ w :: t :: rest) (hw : w.singleSlot? = some (s, e)) (hs : guarded s = false)
      (h : Stmt.accepts (deadAfter out b.jump · rest) s e t = true) :
      Merges guarded out b { b with body := before ++ t.take s e :: rest }
  | jump {b : Block} (before : List Stmt) {w : Stmt} {s : Slot} {e : Expr}
      (hb : b.body = before ++ [w]) (hw : w.singleSlot? = some (s, e)) (hs : guarded s = false)
      (h : Jump.accepts out s e b.jump = true) :
      Merges guarded out b { b with body := before, jump := b.jump.take s e }

theorem absorb_chain {α β : Type} (accepts : Slot → Expr → α → Bool) (take : Slot → Expr → α → α)
    {R : β → β → Prop} (config : List Stmt → α → β)
    (hstep : ∀ w before c s e, w.singleSlot? = some (s, e) → accepts s e c = true →
      R (config (w :: before) c) (config before (take s e c))) (done : List Stmt) (c : α) :
    Relation.ReflTransGen R (config done c)
      (config (absorb accepts take done c).kept (absorb accepts take done c).consumer) := by
  induction done generalizing c with
  | nil => exact .refl
  | cons w before ih =>
    rw [absorb]
    split
    · next s e hw =>
      split
      · next h => exact .head (hstep w before c s e hw h) (ih _)
      · exact .refl
    · exact .refl

theorem absorb_keeps {α : Type} (accepts : Slot → Expr → α → Bool) (take : Slot → Expr → α → α)
    {P : List Stmt → α → Prop} (hstep : ∀ w before c s e, w.singleSlot? = some (s, e) → accepts s e c = true →
      P (w :: before) c → P before (take s e c)) {done : List Stmt} {c : α} (h : P done c) :
    P (absorb accepts take done c).kept (absorb accepts take done c).consumer := by
  have hchain := absorb_chain (R := fun x y : Prop => x → y) accepts take P hstep done c
  generalize P (absorb accepts take done c).kept (absorb accepts take done c).consumer = Q at hchain ⊢
  induction hchain with
  | refl => exact h
  | tail _ hnext ih => exact hnext ih

theorem length_absorb {α : Type} (accepts : Slot → Expr → α → Bool) (take : Slot → Expr → α → α)
    (done : List Stmt) (c : α) :
    (absorb accepts take done c).kept.length + (absorb accepts take done c).taken = done.length := by
  induction done generalizing c with
  | nil => rfl
  | cons w before ih =>
    rw [absorb]
    split
    · next s e _ =>
      split
      · rw [List.length_cons, ← ih (take s e c)]
        exact (Nat.add_assoc _ _ _).symm
      · rfl
    · rfl

namespace Block

section Merging

variable {guarded : Slot → Bool} {out : NatSet}

theorem inlineStmts_chain (b : Block) (done todo : List Stmt) :
    Relation.ReflTransGen (Merges guarded out) { b with body := done.reverse ++ todo }
      { b with body := (inlineStmts guarded out b.jump done todo).1.reverse } := by
  induction todo generalizing done with
  | nil =>
    rw [List.append_nil]
    exact .refl
  | cons t rest ih =>
    let accepts := fun s e t => !guarded s && Stmt.accepts (deadAfter out b.jump · rest) s e t
    have htaken := absorb_chain (R := Merges guarded out) accepts Stmt.take
      (fun done t => { b with body := done.reverse ++ t :: rest }) (fun w before c s e hw h => by
        rw [Bool.and_eq_true, Bool.not_eq_true'] at h
        exact .stmt (b := { b with body := _ }) before.reverse rest (by simp) hw h.1 h.2) done t
    have hlater := ih ((absorb accepts Stmt.take done t).consumer :: (absorb accepts Stmt.take done t).kept)
    rw [List.reverse_cons, List.append_assoc] at hlater
    exact htaken.trans hlater

theorem inline_chain (b : Block) : Relation.ReflTransGen (Merges guarded out) b (b.inline guarded out) := by
  refine (inlineStmts_chain b [] b.body).trans ?_
  refine absorb_chain _ Jump.take (fun done j => { b with body := done.reverse, jump := j }) ?_ _ b.jump
  intro w before j s e hw h
  rw [Bool.and_eq_true, Bool.not_eq_true'] at h
  exact .jump (b := { b with body := _, jump := j }) before.reverse (by simp) hw h.1 h.2

theorem length_inlineStmts (guarded : Slot → Bool) (out : NatSet) (j : Jump) (done todo : List Stmt) :
    (inlineStmts guarded out j done todo).1.length + (inlineStmts guarded out j done todo).2 =
      done.length + todo.length := by
  induction todo generalizing done with
  | nil => rfl
  | cons t rest ih =>
    let r := absorb (fun s e t => !guarded s && Stmt.accepts (deadAfter out j · rest) s e t) Stmt.take done t
    have htaken : r.kept.length + r.taken = done.length := length_absorb _ _ done t
    have hlater := ih (r.consumer :: r.kept)
    change (inlineStmts guarded out j (r.consumer :: r.kept) rest).1.length +
      (r.taken + (inlineStmts guarded out j (r.consumer :: r.kept) rest).2) = _
    rw [List.length_cons] at hlater ⊢
    omega

theorem length_inlineCounted (guarded : Slot → Bool) (out : NatSet) (b : Block) :
    (b.inline guarded out).body.length + (b.inlineCounted guarded out).2 = b.body.length := by
  have hstmts := length_inlineStmts guarded out b.jump [] b.body
  have htaken := length_absorb (fun s e j => !guarded s && Jump.accepts out s e j) Jump.take
    (inlineStmts guarded out b.jump [] b.body).1 b.jump
  simp only [inline, inlineCounted, List.length_reverse, List.length_nil] at hstmts ⊢
  omega

end Merging

def effects (b : Block) : List Access := b.body.flatMap Stmt.effects ++ b.jump.effects

def plainCaptures (b : Block) : Bool :=
  b.body.all (fun s => Expr.plainCaptures s.operands) && Expr.plainCaptures b.jump.condition?.toList

theorem plainCaptures_iff {b : Block} : b.plainCaptures = true ↔
    (∀ t ∈ b.body, Expr.plainCaptures t.operands = true) ∧ Expr.plainCaptures b.jump.condition?.toList = true := by
  rw [plainCaptures, Bool.and_eq_true, List.all_eq_true]

end Block

theorem Stmt.plainCaptures_take {s : Slot} {e : Expr} {t : Stmt} (he : Expr.plainCaptures [e] = true)
    (ht : Expr.plainCaptures t.operands = true) : Expr.plainCaptures (t.take s e).operands = true :=
  (Stmt.carries ⟨.slot, s⟩ t (some e)).plainCaptures ht (by simpa using he)

theorem Jump.plainCaptures_take {s : Slot} {e : Expr} {j : Jump} (he : Expr.plainCaptures [e] = true)
    (hj : Expr.plainCaptures j.condition?.toList = true) :
    Expr.plainCaptures (j.take s e).condition?.toList = true := by
  cases j with
  | branch c a b => exact (Expr.carriesList ⟨.slot, s⟩ [c] (some e)).plainCaptures hj (by simpa using he)
  | _ => exact hj

theorem Stmt.accepts_reorders {dead : Slot → Bool} {s : Slot} {e : Expr} {t : Stmt}
    (h : Stmt.accepts dead s e t = true) (ht : Expr.plainCaptures t.operands = true) :
    Reorders (Expr.effects [e] ++ t.effects) (t.take s e).effects := by
  rw [Stmt.accepts, Bool.and_eq_true] at h
  have hmove := canInline_reorders h.1 ht (Stmt.offered s t (some e))
  rw [Stmt.effects, Stmt.effects, Stmt.own_take, ← List.append_assoc]
  exact hmove.append_right _

theorem Jump.accepts_reorders {out : NatSet} {s : Slot} {e : Expr} {j : Jump}
    (h : Jump.accepts out s e j = true) (hj : Expr.plainCaptures j.condition?.toList = true) :
    Reorders (Expr.effects [e] ++ j.effects) (j.take s e).effects := by
  cases j with
  | branch c a b => exact canInline_reorders h hj (Expr.offeredList s [c] (some e))
  | _ => simp [accepts, condition?, canInline, total] at h

namespace Block

variable {guarded : Slot → Bool} {out : NatSet} {b c : Block}

theorem Merges.plainCaptures (h : Merges guarded out b c) (hb : b.plainCaptures = true) :
    c.plainCaptures = true := by
  rw [plainCaptures_iff] at hb ⊢
  cases h with
  | stmt _ _ hbody hw =>
    simp only [hbody, List.forall_mem_append, List.forall_mem_cons, Stmt.operands_of_singleSlot? hw] at hb ⊢
    obtain ⟨⟨hbefore, he, ht, hrest⟩, hj⟩ := hb
    exact ⟨⟨hbefore, Stmt.plainCaptures_take he ht, hrest⟩, hj⟩
  | jump _ hbody hw =>
    simp only [hbody, List.forall_mem_append, List.forall_mem_singleton, Stmt.operands_of_singleSlot? hw] at hb ⊢
    exact ⟨hb.1.1, Jump.plainCaptures_take hb.1.2 hb.2⟩

theorem inline_keeps {P : Block → Prop} (hb : P b) (hstep : ∀ {c d}, Merges guarded out c d → P c → P d) :
    P (b.inline guarded out) := by
  have hchain : Relation.ReflTransGen (Merges guarded out) b (b.inline guarded out) := inline_chain b
  generalize b.inline guarded out = c at hchain ⊢
  induction hchain with
  | refl => exact hb
  | tail _ h ih => exact hstep h ih

theorem inline_keeps_plain {P : Block → Prop} (hplain : b.plainCaptures = true) (hb : P b)
    (hstep : ∀ {c d}, Merges guarded out c d → c.plainCaptures = true → P c → P d) : P (b.inline guarded out) := by
  suffices h : (b.inline guarded out).plainCaptures = true ∧ P (b.inline guarded out) from h.2
  exact inline_keeps (P := fun c => c.plainCaptures = true ∧ P c) ⟨hplain, hb⟩
    fun h ⟨hc, ih⟩ => ⟨h.plainCaptures hc, hstep h hc ih⟩

theorem Merges.reorders (h : Merges guarded out b c) (hb : b.plainCaptures = true) :
    Reorders b.effects c.effects := by
  rw [plainCaptures_iff] at hb
  have heffects {w : Stmt} {s : Slot} {e : Expr} (hw : w.singleSlot? = some (s, e)) :
      w.effects = Expr.effects [e] := by
    rw [Stmt.effects, Stmt.operands_of_singleSlot? hw, Stmt.own_of_singleSlot? hw, List.append_nil]
  cases h with
  | @stmt before rest w t s e hbody hw hs h =>
    have hmove := Stmt.accepts_reorders h (hb.1 t (by simp [hbody]))
    have := (hmove.append_left (before.flatMap Stmt.effects)).append_right
      (rest.flatMap Stmt.effects ++ b.jump.effects)
    simpa [effects, hbody, heffects hw] using this
  | jump before hbody hw hs h =>
    have hmove := Jump.accepts_reorders h hb.2
    simpa [effects, hbody, heffects hw] using hmove.append_left (before.flatMap Stmt.effects)

theorem inline_reorders (guarded : Slot → Bool) (out : NatSet) (hb : b.plainCaptures = true) :
    Reorders b.effects (b.inline guarded out).effects :=
  inline_keeps_plain (P := fun c => Reorders b.effects c.effects) hb (.refl _)
    fun h hc ih => ih.trans (h.reorders hc)

end Block

namespace Proto

def stmtCount (p : Proto) : Nat := total (·.body.length) p.blocks

theorem fst_inline (p : Proto) (l : Liveness) (r : Protected) : (p.inline l r).1 = { p with
    blocks := p.blocks.map fun b =>
      if (Flow.of p).isReachable b.id then b.inline (r.contains b.id) (l.after b.id) else b } := by
  rw [inline, Proto.mk.injEq, List.map_map]
  refine ⟨rfl, rfl, rfl, List.map_congr_left fun b _ => ?_, rfl, rfl⟩
  rw [Function.comp_apply]
  split <;> rfl

theorem blocks_inline (p : Proto) (l : Liveness) (r : Protected) : (p.inline l r).1.blocks =
    p.blocks.map fun b => if (Flow.of p).isReachable b.id then b.inline (r.contains b.id) (l.after b.id) else b :=
  congrArg blocks (fst_inline p l r)

theorem length_blocks_inline (p : Proto) (l : Liveness) (r : Protected) :
    (p.inline l r).1.blocks.length = p.blocks.length := by
  rw [blocks_inline, List.length_map]

theorem stmtCount_inline (p : Proto) (l : Liveness) (r : Protected) :
    (p.inline l r).2 + (p.inline l r).1.stmtCount = p.stmtCount := by
  rw [stmtCount, stmtCount, inline, total_map, total_map, total_map, total_add]
  refine total_congr fun b _ => ?_
  split
  · rw [Nat.add_comm]
    exact Block.length_inlineCounted _ _ b
  · exact Nat.zero_add _

theorem inline_keeps_calls_behind (p : Proto) (l : Liveness) (r : Protected) {i : Nat} {b b' : Block}
    (hb : p.blocks[i]? = some b) (hb' : (p.inline l r).1.blocks[i]? = some b')
    (hplain : b.plainCaptures = true) :
    ∃ m : List (Access × Nat), m.Perm b.effects.zipIdx ∧ m.map Prod.fst = b'.effects ∧
      m.Pairwise fun x y => x.1.isCall = true → y.1.isGuarded = true → x.2 < y.2 := by
  refine Reorders.exists_places ?_
  rw [blocks_inline, List.getElem?_map, hb, Option.map_some, Option.some.injEq] at hb'
  subst hb'
  split
  · exact Block.inline_reorders _ _ hplain
  · exact .refl _

end Proto

/-! What the theorem leaves open does happen. A length falls behind a call. -/

example :
    let b : Block := ⟨0, 0, 0, [
      .store (.slot 1) (.unary .length (.slot 0)),
      .store (.slot 2) (.call (.global "f") [.slot 0]),
      .ret [.binary .add (.slot 2) (.slot 1)] 0], .leave⟩
    b.effects = [.length, .global "f", .call 1] ∧
      (b.inline (fun _ => false) ∅).effects = [.global "f", .call 1, .length] := by
  decide

/-! A call falls behind a read that it could change. -/

example :
    let b : Block := ⟨0, 0, 0, [
      .store (.slot 0) (.call (.global "f") []),
      .ret [.binary .add (.global "x") (.slot 0)] 0], .leave⟩
    b.effects = [.global "f", .call 0, .global "x"] ∧
      (b.inline (fun _ => false) ∅).effects = [.global "x", .global "f", .call 0] := by
  decide

/-! A call falls behind a test that may skip it. -/

example :
    let b : Block := ⟨0, 0, 0, [
      .store (.slot 1) (.call (.global "f") []),
      .ret [.binary .and (.slot 0) (.slot 1)] 0], .leave⟩
    (b.inline (fun _ => false) ∅).body = [.ret [.binary .and (.slot 0) (.call (.global "f") [])] 0] := by
  rfl

end LuaLift
