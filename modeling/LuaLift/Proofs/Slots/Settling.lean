import LuaLift.Proofs.Slots.Dataflow
import LuaLift.Proofs.Slots.Liveness

/-!
Inlining settles. A merge leaves alone what is live in front of it, so that what was refused once stays refused,
and a second pass with the same protected slots finds nothing to take up.
-/

namespace LuaLift

theorem Substituted.mem_iff {c d : Cell} {x : Expr} {l l' : List Cell} (h : Substituted c (some x) l l' none)
    (hl : l.count c = 1) : d ∈ l' ↔ d ∈ x.cells ∨ d ≠ c ∧ d ∈ l := by
  have hd := h.count d
  simp only [← List.count_pos_iff]
  by_cases hdc : d = c
  · subst hdc
    rw [hl, List.count_singleton_self] at hd
    simp only [ne_eq, not_true_eq_false, false_and, or_false]
    omega
  · rw [List.count_singleton, if_neg (by simpa using Ne.symm hdc)] at hd
    simp only [ne_eq, hdc, not_false_eq_true, true_and]
    omega

section Accepted

variable {s : Slot} {x : Expr} {es es' : List Expr} {dead : Bool} {o : Option Expr}
  (h : canInline s x es dead = true) (hes : Expr.plainCaptures es = true)
  (ho : Offered s (some x) (Expr.accessesList es) (Expr.accessesList es') o)
include h hes ho

theorem eq_none_of_canInline : o = none := by
  simp only [canInline, Bool.and_eq_true, Bool.not_eq_true', List.any_eq_false, List.contains_eq_mem,
    decide_eq_true_eq] at h
  obtain ⟨⟨⟨⟨htotal, hfree⟩, -⟩, -⟩, -⟩ := h
  have hread := Expr.slot_mem_nodesList (Nat.lt_of_lt_of_eq Nat.one_pos (beq_iff_eq.1 htotal).symm)
  exact (ho.of_mem (Expr.slot_mem_accessesList hes hread hfree)).1

theorem mem_cells_of_canInline {d : Cell}
    (hc : Substituted ⟨.slot, s⟩ (some x) (es.flatMap Expr.cells) (es'.flatMap Expr.cells) o) :
    d ∈ es'.flatMap Expr.cells ↔ d ∈ x.cells ∨ d ≠ ⟨.slot, s⟩ ∧ d ∈ es.flatMap Expr.cells := by
  obtain rfl := eq_none_of_canInline h hes ho
  exact hc.mem_iff (opens_of_canInline h hes).1

end Accepted

theorem mem_flatMap_reads {kind : CellKind} {k : Nat} {es : List Expr} :
    k ∈ es.flatMap (·.reads kind) ↔ ⟨kind, k⟩ ∈ es.flatMap Expr.cells := by
  simp only [List.mem_flatMap, Expr.mem_reads]

namespace Stmt

variable {dead : Slot → Bool} {s : Slot} {e : Expr} {w t : Stmt} {k : Nat}

theorem mem_readSlots_take (h : t.accepts dead s e = true) (ht : Expr.plainCaptures t.operands = true) :
    k ∈ (t.take s e).readSlots ↔ k ∈ e.reads .slot ∨ k ≠ s ∧ k ∈ t.readSlots := by
  rw [accepts, Bool.and_eq_true] at h
  rw [readSlots, readSlots, reads, reads, mem_flatMap_reads, mem_flatMap_reads, Expr.mem_reads]
  refine (mem_cells_of_canInline h.1 ht (offered s t (some e)) (substituted ⟨.slot, s⟩ t (some e))).trans ?_
  simp

theorem writtenSlots_take (s : Slot) (e : Expr) (t : Stmt) : (t.take s e).writtenSlots = t.writtenSlots := by
  cases t with
  | assign a => exact filterMap_substituteTargets (fun _ _ => rfl) ⟨.slot, s⟩ a.targets (some e)
  | _ => rfl

theorem mem_liveBefore_write {live : NatSet} (hw : w.singleSlot? = some (s, e)) :
    k ∈ w.liveBefore .slot live ↔ k ∈ e.reads .slot ∨ k ≠ s ∧ k ∈ live := by
  obtain ⟨d, l, rfl⟩ := exists_of_singleSlot? hw
  simp [reads, operands, Expr.targetOperands, writes, Expr.cellOf?, Expr.cell?]

theorem dead_of_accepts (h : t.accepts dead s e = true) : s ∈ t.writtenSlots ∨ dead s = true := by
  simp only [accepts, canInline, Bool.and_eq_true, Bool.or_eq_true, List.contains_eq_mem, decide_eq_true_eq] at h
  exact h.1.1.1.2

theorem liveBefore_take {live : NatSet} (hw : w.singleSlot? = some (s, e)) (h : t.accepts dead s e = true)
    (ht : Expr.plainCaptures t.operands = true) (hdead : s ∈ t.writtenSlots ∨ s ∉ live) :
    (t.take s e).liveBefore .slot live = w.liveBefore .slot (t.liveBefore .slot live) := by
  apply NatSet.ext
  intro k
  have hwritten : (t.take s e).writes .slot = t.writes .slot := writtenSlots_take s e t
  have hreads : k ∈ (t.take s e).reads .slot ↔ k ∈ e.reads .slot ∨ k ≠ s ∧ k ∈ t.reads .slot :=
    mem_readSlots_take h ht
  have hlive (hkw : k ∉ t.writes .slot) (hk : k ∈ live) : k ≠ s := by
    rintro rfl
    exact hdead.elim hkw fun hdead => hdead hk
  rw [mem_liveBefore_write hw, mem_liveBefore, mem_liveBefore, hwritten, hreads]
  constructor
  · rintro ((he | ⟨hks, hk⟩) | ⟨hkw, hk⟩)
    · exact .inl he
    · exact .inr ⟨hks, .inl hk⟩
    · exact .inr ⟨hlive hkw hk, .inr ⟨hkw, hk⟩⟩
  · rintro (he | ⟨hks, hk | hk⟩)
    · exact .inl (.inl he)
    · exact .inl (.inr ⟨hks, hk⟩)
    · exact .inr hk

end Stmt

namespace Jump

variable {out : NatSet} {s : Slot} {e : Expr} {j : Jump} {k : Nat}

theorem not_mem_of_accepts (h : j.accepts out s e = true) : s ∉ out := by
  simp only [accepts, canInline, Bool.and_eq_true, decide_eq_true_eq] at h
  exact h.1.1.2

theorem mem_reads_take (h : j.accepts out s e = true) (hj : Expr.plainCaptures j.condition?.toList = true) :
    k ∈ (j.take s e).reads .slot ↔ k ∈ e.reads .slot ∨ k ≠ s ∧ k ∈ j.reads .slot := by
  cases j with
  | branch c a b =>
    have hcells := mem_cells_of_canInline (d := ⟨.slot, k⟩) h hj (Expr.offeredList s [c] (some e))
      (Expr.substitutedList ⟨.slot, s⟩ [c] (some e))
    simpa [take, mapCondition, reads, condition?, Expr.mem_reads, Expr.substituteList] using hcells
  | _ => simp [accepts, condition?, canInline, total] at h

end Jump

def liveFrom (out : NatSet) (j : Jump) (rest : List Stmt) : NatSet :=
  (Stmt.liveBeforeEach .slot (out.insertAll (j.reads .slot)) rest).1

section Live

variable {out out' : NatSet} {j j' : Jump} {rest rest' : List Stmt}

theorem liveFrom_cons (t : Stmt) : liveFrom out j (t :: rest) = t.liveBefore .slot (liveFrom out j rest) := rfl

theorem liveFrom_append (before : List Stmt) (h : liveFrom out j rest = liveFrom out' j' rest') :
    liveFrom out j (before ++ rest) = liveFrom out' j' (before ++ rest') := by
  induction before with
  | nil => exact h
  | cons t before ih => rw [List.cons_append, List.cons_append, liveFrom_cons, liveFrom_cons, ih]

theorem mem_liveFrom_mono (hsub : ∀ k ∈ out', k ∈ out) {k : Nat} (hk : k ∈ liveFrom out' j rest) :
    k ∈ liveFrom out j rest := by
  apply Stmt.livePoints_pointwise _ hk
  simp only [NatSet.mem_insertAll]
  exact Or.imp_left (hsub k)

theorem mem_liveFrom_nil {k : Nat} : k ∈ liveFrom out j [] ↔ k ∈ out ∨ k ∈ j.reads .slot := NatSet.mem_insertAll

theorem deadAfter_eq (s : Slot) : deadAfter out j s rest = decide (s ∉ liveFrom out j rest) := by
  rw [Bool.eq_iff_iff, decide_eq_true_eq]
  induction rest with
  | nil => simp [deadAfter, mem_liveFrom_nil, and_comm]
  | cons t rest ih =>
    have hreads : t.readSlots.contains s = true ↔ s ∈ t.reads .slot := by simp [Stmt.readSlots]
    have hwrites : t.writtenSlots.contains s = true ↔ s ∈ t.writes .slot := by simp [Stmt.writtenSlots]
    rw [deadAfter, liveFrom_cons, Stmt.mem_liveBefore]
    simp only [hreads, hwrites]
    split
    · next hread => simp [hread]
    · next hread =>
      split
      · next hwritten => simp [hread, hwritten]
      · next hwritten => simp [hread, hwritten, ih]

theorem liveFrom_take {w : Stmt} {s : Slot} {e : Expr} (hw : w.singleSlot? = some (s, e))
    (h : j.accepts out' s e = true) (hj : Expr.plainCaptures j.condition?.toList = true) (hs : s ∉ out) :
    liveFrom out (j.take s e) [] = liveFrom out j [w] := by
  apply NatSet.ext
  intro k
  have hne (hk : k ∈ out) : k ≠ s := by
    rintro rfl
    exact hs hk
  rw [liveFrom_cons, Stmt.mem_liveBefore_write hw, mem_liveFrom_nil, mem_liveFrom_nil, Jump.mem_reads_take h hj]
  constructor
  · rintro (hk | he | ⟨hks, hk⟩)
    · exact .inr ⟨hne hk, .inl hk⟩
    · exact .inl he
    · exact .inr ⟨hks, .inr hk⟩
  · rintro (he | ⟨hks, hk | hk⟩)
    · exact .inr (.inl he)
    · exact .inl hk
    · exact .inr (.inr ⟨hks, hk⟩)

end Live

theorem Block.Merges.liveFrom {guarded : Slot → Bool} {out out' : NatSet} {b c : Block} (h : Merges guarded out b c)
    (hb : b.plainCaptures = true) (hsub : ∀ k ∈ out', k ∈ out) :
    liveFrom out' c.jump c.body = liveFrom out' b.jump b.body := by
  rw [plainCaptures_iff] at hb
  cases h with
  | @stmt before rest w t s e hbody hw hs h =>
    have ht := hb.1 t (by simp [hbody])
    have hdead : s ∈ t.writtenSlots ∨ s ∉ LuaLift.liveFrom out' b.jump rest := by
      refine (Stmt.dead_of_accepts h).imp_right fun hdead hs => ?_
      rw [deadAfter_eq, decide_eq_true_eq] at hdead
      exact hdead (mem_liveFrom_mono hsub hs)
    rw [hbody]
    exact liveFrom_append before (Stmt.liveBefore_take hw h ht hdead)
  | jump before hbody hw hs h =>
    next w s e =>
    have hout : s ∉ out' := fun hs => Jump.not_mem_of_accepts h (hsub s hs)
    rw [hbody]
    simpa using liveFrom_append before (liveFrom_take hw h hb.2 hout)

section Absorb

variable {α : Type} {accepts : Slot → Expr → α → Bool} {take : Slot → Expr → α → α} {done : List Stmt} {c : α}

def Idle (accepts : Slot → Expr → α → Bool) (done : List Stmt) (c : α) : Prop :=
  ∀ w ∈ done.head?, ∀ s e, w.singleSlot? = some (s, e) → accepts s e c = false

theorem idle_absorb (done : List Stmt) (c : α) :
    Idle accepts (absorb accepts take done c).kept (absorb accepts take done c).consumer := by
  induction done generalizing c with
  | nil => simp [Idle, absorb]
  | cons w before ih =>
    rw [absorb]
    split
    · next s e hw =>
      split
      · exact ih _
      · next hrefused =>
        rintro _ ⟨⟩ s' e' hw'
        obtain ⟨rfl, rfl⟩ := Prod.mk.inj (Option.some.inj (hw.symm.trans hw'))
        simpa using hrefused
    · next hw =>
      rintro _ ⟨⟩ s' e' hw'
      cases hw.symm.trans hw'

theorem Idle.mono {accepts' : Slot → Expr → α → Bool} (hsub : ∀ s e c, accepts' s e c = true → accepts s e c = true)
    (h : Idle accepts done c) : Idle accepts' done c := by
  intro w hw s e hse
  have hrefused := h w hw s e hse
  rw [Bool.eq_false_iff] at hrefused ⊢
  exact fun haccepts => hrefused (hsub s e c haccepts)

theorem absorb_of_idle (h : Idle accepts done c) : absorb accepts take done c = ⟨done, c, 0⟩ := by
  cases done with
  | nil => rfl
  | cons w before =>
    rw [absorb]
    split
    · next s e hw => rw [if_neg (by simp [h w rfl s e hw])]
    · rfl

end Absorb

def Stmt.takesUp (guarded : Slot → Bool) (live : NatSet) (s : Slot) (e : Expr) (t : Stmt) : Bool :=
  !guarded s && t.accepts (fun s => decide (s ∉ live)) s e

def Jump.takesUp (guarded : Slot → Bool) (out : NatSet) (s : Slot) (e : Expr) (j : Jump) : Bool :=
  !guarded s && j.accepts out s e

def Settled (guarded : Slot → Bool) : List Stmt → NatSet → Prop
  | [], _ => True
  | t :: done, live => Idle (Stmt.takesUp guarded live) done t ∧ Settled guarded done (t.liveBefore .slot live)

section Mono

variable {guarded guarded' : Slot → Bool} (hsub : ∀ s, guarded s = true → guarded' s = true)
include hsub

theorem not_guarded {s : Slot} (h : (!guarded' s) = true) : (!guarded s) = true := by
  rw [Bool.not_eq_true'] at h ⊢
  by_contra hs
  rw [hsub s (by simpa using hs)] at h
  cases h

theorem Settled.mono {done : List Stmt} {live : NatSet} (h : Settled guarded done live) :
    Settled guarded' done live := by
  induction done generalizing live with
  | nil => trivial
  | cons t done ih =>
    refine ⟨h.1.mono fun s e t htakes => ?_, ih h.2⟩
    rw [Stmt.takesUp, Bool.and_eq_true] at htakes ⊢
    exact ⟨not_guarded hsub htakes.1, htakes.2⟩

end Mono

namespace Block

variable {guarded : Slot → Bool} {out : NatSet} {j : Jump}

theorem takesUp_eq (rest : List Stmt) : (fun s e t => !guarded s && Stmt.accepts (deadAfter out j · rest) s e t) =
    Stmt.takesUp guarded (liveFrom out j rest) := by
  funext s e t
  simp only [Stmt.takesUp, deadAfter_eq]

def Plain (ss : List Stmt) : Prop := ∀ s ∈ ss, Expr.plainCaptures s.operands = true

theorem plainCaptures_value {w : Stmt} {s : Slot} {e : Expr} (hw : w.singleSlot? = some (s, e))
    (h : Expr.plainCaptures w.operands = true) : Expr.plainCaptures [e] = true := by
  rwa [Stmt.operands_of_singleSlot? hw] at h

theorem settled_absorb {live : NatSet} {done : List Stmt} {t : Stmt} (hplain : Plain (t :: done))
    (h : Settled guarded done (t.liveBefore .slot live)) :
    Plain ((absorb (Stmt.takesUp guarded live) Stmt.take done t).consumer ::
        (absorb (Stmt.takesUp guarded live) Stmt.take done t).kept) ∧
      Settled guarded ((absorb (Stmt.takesUp guarded live) Stmt.take done t).consumer ::
        (absorb (Stmt.takesUp guarded live) Stmt.take done t).kept) live := by
  have hkept := absorb_keeps (Stmt.takesUp guarded live) Stmt.take
    (P := fun done t => Plain (t :: done) ∧ Settled guarded done (t.liveBefore .slot live)) ?_ ⟨hplain, h⟩
  · exact ⟨hkept.1, idle_absorb done t, hkept.2⟩
  · rintro w before t s e hw htakes ⟨hplain, h⟩
    rw [Stmt.takesUp, Bool.and_eq_true] at htakes
    have ht := hplain t (.head _)
    constructor
    · intro u hu
      rcases List.mem_cons.1 hu with rfl | hu
      · exact Stmt.plainCaptures_take (plainCaptures_value hw (hplain w (.tail _ (.head _)))) ht
      · exact hplain u (.tail _ (.tail _ hu))
    · rw [Stmt.liveBefore_take hw htakes.2 ht (by simpa using Stmt.dead_of_accepts htakes.2)]
      exact h.2

theorem settled_inlineStmts {done todo : List Stmt} (hplain : Plain (todo ++ done))
    (h : Settled guarded done (liveFrom out j todo)) :
    Plain (inlineStmts guarded out j done todo).1 ∧
      Settled guarded (inlineStmts guarded out j done todo).1 (liveFrom out j []) := by
  induction todo generalizing done with
  | nil => exact ⟨hplain, h⟩
  | cons t rest ih =>
    simp only [inlineStmts, takesUp_eq]
    have hparts (u : Stmt) (hu : u ∈ t :: done) : Expr.plainCaptures u.operands = true := by
      apply hplain u
      rw [List.cons_append]
      exact (List.mem_cons.1 hu).elim (fun hu => hu ▸ .head _) fun hu => .tail _ (List.mem_append_right rest hu)
    have hfront : Settled guarded done (t.liveBefore .slot (liveFrom out j rest)) := h
    obtain ⟨hplain', hsettled⟩ := settled_absorb hparts hfront
    apply ih _ hsettled
    intro u hu
    rcases List.mem_append.1 hu with hu | hu
    · exact hplain u (.tail _ (List.mem_append_left done hu))
    · exact hplain' u hu

theorem settled_absorb_jump {done : List Stmt} (hplain : Plain done)
    (hj : Expr.plainCaptures j.condition?.toList = true) (h : Settled guarded done (liveFrom out j [])) :
    Settled guarded (absorb (Jump.takesUp guarded out) Jump.take done j).kept
      (liveFrom out (absorb (Jump.takesUp guarded out) Jump.take done j).consumer []) := by
  have hkept := absorb_keeps (Jump.takesUp guarded out) Jump.take
    (P := fun done j => Plain done ∧ Expr.plainCaptures j.condition?.toList = true ∧
      Settled guarded done (liveFrom out j [])) ?_ ⟨hplain, hj, h⟩
  · exact hkept.2.2
  · rintro w before j s e hw htakes ⟨hplain, hj, h⟩
    rw [Jump.takesUp, Bool.and_eq_true] at htakes
    refine ⟨fun u hu => hplain u (.tail _ hu), ?_, ?_⟩
    · exact Jump.plainCaptures_take (plainCaptures_value hw (hplain w (.head _))) hj
    · rw [liveFrom_take hw htakes.2 hj (Jump.not_mem_of_accepts htakes.2)]
      exact h.2

def Settles (guarded : Slot → Bool) (out : NatSet) (b : Block) : Prop :=
  Settled guarded b.body.reverse (liveFrom out b.jump []) ∧ Idle (Jump.takesUp guarded out) b.body.reverse b.jump

theorem settles_inline {b : Block} (hb : b.plainCaptures = true) : (b.inline guarded out).Settles guarded out := by
  rw [plainCaptures_iff] at hb
  have hstmts : Plain (inlineStmts guarded out b.jump [] b.body).1 ∧
      Settled guarded (inlineStmts guarded out b.jump [] b.body).1 (liveFrom out b.jump []) := by
    apply settled_inlineStmts
    · rw [List.append_nil]
      exact hb.1
    · trivial
  constructor
  · simp only [inline, inlineCounted, List.reverse_reverse]
    exact settled_absorb_jump hstmts.1 hb.2 hstmts.2
  · simp only [inline, inlineCounted, List.reverse_reverse]
    exact idle_absorb _ b.jump

theorem inlineStmts_of_settled {done todo : List Stmt}
    (h : Settled guarded (todo.reverse ++ done) (liveFrom out j [])) :
    Settled guarded done (liveFrom out j todo) ∧ (inlineStmts guarded out j done todo).1 = todo.reverse ++ done := by
  induction todo generalizing done with
  | nil => exact ⟨h, rfl⟩
  | cons t rest ih =>
    rw [List.reverse_cons, List.append_assoc] at h ⊢
    obtain ⟨⟨hidle, hsettled⟩, hinline⟩ := ih h
    refine ⟨hsettled, ?_⟩
    have habsorb : absorb (Stmt.takesUp guarded (liveFrom out j rest)) Stmt.take done t = ⟨done, t, 0⟩ :=
      absorb_of_idle hidle
    simp only [inlineStmts, takesUp_eq, habsorb]
    exact hinline

theorem inline_of_settles {b : Block} (h : b.Settles guarded out) : b.inline guarded out = b := by
  have hsettled : Settled guarded (b.body.reverse ++ []) (liveFrom out b.jump []) := by
    rw [List.append_nil]
    exact h.1
  have hstmts := (inlineStmts_of_settled hsettled).2
  rw [List.append_nil] at hstmts
  have hjump : absorb (fun s e j => !guarded s && Jump.accepts out s e j) Jump.take b.body.reverse b.jump =
      ⟨b.body.reverse, b.jump, 0⟩ := absorb_of_idle h.2
  simp only [inline, inlineCounted, hstmts, hjump, List.reverse_reverse]

theorem Settles.mono {guarded' : Slot → Bool} (hsub : ∀ s, guarded s = true → guarded' s = true) {b : Block}
    (h : b.Settles guarded out) : b.Settles guarded' out := by
  refine ⟨h.1.mono hsub, h.2.mono fun s e j htakes => ?_⟩
  rw [Jump.takesUp, Bool.and_eq_true] at htakes ⊢
  exact ⟨not_guarded hsub htakes.1, htakes.2⟩

end Block

theorem Stmt.isReturn_frame (s : Stmt) : s.frame.isReturn = s.isReturn := by cases s <;> rfl

theorem Stmt.isDeclaration_frame (s : Stmt) : s.frame.isDeclaration = s.isDeclaration := by cases s <;> rfl

namespace Block

variable {guarded : Slot → Bool} {out : NatSet} {b c : Block}

theorem Merges.frames (h : Merges guarded out b c) : (c.body.map Stmt.frame).Sublist (b.body.map Stmt.frame) ∧
    c.jump.frame = b.jump.frame := by
  cases h with
  | stmt before rest hbody =>
    refine ⟨?_, rfl⟩
    rw [hbody, List.map_append, List.map_append, List.map_cons, List.map_cons, List.map_cons, Stmt.frame_take]
    exact (List.sublist_cons_self _ _).append_left _
  | jump before hbody =>
    refine ⟨?_, Jump.frame_take _ _ _⟩
    rw [hbody, List.map_append]
    exact List.sublist_append_left _ _

theorem frames_inline (guarded : Slot → Bool) (out : NatSet) (b : Block) :
    ((b.inline guarded out).body.map Stmt.frame).Sublist (b.body.map Stmt.frame) ∧
      (b.inline guarded out).jump.frame = b.jump.frame :=
  inline_keeps (P := fun c => (c.body.map Stmt.frame).Sublist (b.body.map Stmt.frame) ∧ c.jump.frame = b.jump.frame)
    ⟨.refl _, rfl⟩ fun h ih => ⟨h.frames.1.trans ih.1, h.frames.2.trans ih.2⟩

theorem liveFrom_inline {out' : NatSet} (hb : b.plainCaptures = true) (hsub : ∀ k ∈ out', k ∈ out) :
    liveFrom out' (b.inline guarded out).jump (b.inline guarded out).body = liveFrom out' b.jump b.body :=
  inline_keeps_plain (P := fun c => LuaLift.liveFrom out' c.jump c.body = LuaLift.liveFrom out' b.jump b.body) hb rfl
    fun h hc ih => (h.liveFrom hc hsub).trans ih

theorem targets_inline (guarded : Slot → Bool) (out : NatSet) (b : Block) :
    (b.inline guarded out).jump.targets = b.jump.targets := by
  have hframe := congrArg Jump.targets (frames_inline guarded out b).2
  have htargets (j : Jump) : j.frame.targets = j.targets := by cases j <;> rfl
  rwa [htargets, htargets] at hframe

theorem returns_of_sublist (hb : ∀ {l r : List Stmt} {s : Stmt}, b.body = l ++ s :: r → s.isReturn = true →
      r = [] ∧ b.jump.targets = []) (hsub : (c.body.map Stmt.isReturn).Sublist (b.body.map Stmt.isReturn))
    (htargets : c.jump.targets = b.jump.targets) {l r : List Stmt} {s : Stmt} (hc : c.body = l ++ s :: r)
    (hs : s.isReturn = true) : r = [] ∧ c.jump.targets = [] := by
  rw [hc, List.map_append, List.map_cons, hs] at hsub
  obtain ⟨front, behind, hbody, -, hbehind⟩ := List.append_sublist_iff.1 hsub
  obtain ⟨upTo, rest, rfl, hmem, hrest⟩ := List.cons_sublist_iff.1 hbehind
  obtain ⟨k, m, rfl⟩ := List.append_of_mem hmem
  have hsplit : b.body.map Stmt.isReturn = (front ++ k) ++ true :: (m ++ rest) := by simpa using hbody
  obtain ⟨l', r', hbody', -, hr'⟩ := List.map_eq_append_iff.1 hsplit
  obtain ⟨s', r'', rfl, hs', hr''⟩ := List.map_eq_cons_iff.1 hr'
  obtain ⟨rfl, hnone⟩ := hb hbody' hs'
  obtain ⟨-, rfl⟩ := List.append_eq_nil_iff.1 hr''.symm
  exact ⟨List.map_eq_nil_iff.1 (List.sublist_nil.1 hrest), htargets.trans hnone⟩

end Block

namespace Proto

variable {p q : Proto} {l l' : Liveness} {r r' : Protected} {rounds n : Nat}

theorem flow_inline : Flow.of (p.inline l r).1 = Flow.of p := by
  apply flow_map (blocks_inline p l r)
  · intro b
    split <;> rfl
  · intro b
    split
    · exact Block.targets_inline _ _ _
    · rfl

theorem mem_blocks_inline {c : Block} (hc : c ∈ (p.inline l r).1.blocks) : ∃ b ∈ p.blocks, c.id = b.id ∧
    (c.body.map Stmt.frame).Sublist (b.body.map Stmt.frame) ∧ c.jump.targets = b.jump.targets := by
  rw [blocks_inline] at hc
  obtain ⟨b, hb, rfl⟩ := List.mem_map.1 hc
  refine ⟨b, hb, ?_⟩
  split
  · exact ⟨rfl, (Block.frames_inline _ _ b).1, Block.targets_inline _ _ b⟩
  · exact ⟨rfl, .refl _, rfl⟩

theorem WellShaped.inline (hp : p.WellShaped) : (p.inline l r).1.WellShaped := by
  have hlength := length_blocks_inline p l r
  refine ⟨hlength ▸ hp.nonempty, ?_, ?_, ?_, ?_⟩
  · intro i c hc
    rw [blocks_inline, List.getElem?_map, Option.map_eq_some_iff] at hc
    obtain ⟨b, hb, rfl⟩ := hc
    rw [← hp.numbered hb]
    split <;> rfl
  · intro c hc t ht
    obtain ⟨b, hb, -, -, htargets⟩ := mem_blocks_inline hc
    rw [htargets] at ht
    exact hlength ▸ hp.inside hb t ht
  · intro c hc _ _ _
    obtain ⟨b, hb, -, hframes, htargets⟩ := mem_blocks_inline hc
    have hreturns := hframes.map Stmt.isReturn
    simp only [List.map_map, Function.comp_def, Stmt.isReturn_frame] at hreturns
    exact Block.returns_of_sublist (hp.returns hb) hreturns htargets
  · intro c hc s hs
    obtain ⟨b, hb, -, hframes, -⟩ := mem_blocks_inline hc
    obtain ⟨s', hs', hframe⟩ := List.mem_map.1 (hframes.subset (List.mem_map_of_mem hs))
    rw [← s.isDeclaration_frame, ← hframe, s'.isDeclaration_frame]
    exact hp.undeclared hb s' hs'

theorem getElem?_inline (hp : p.WellShaped) {b : BlockId} (hb : (Flow.of p).isReachable b = true) : ∃ block,
    p.blocks[b]? = some block ∧
      (p.inline l r).1.blocks[b]? = some (block.inline (r.contains b) (l.after b)) := by
  have hblock := List.getElem?_eq_getElem (hp.lt_of_isReachable hb)
  refine ⟨_, hblock, ?_⟩
  rw [blocks_inline, List.getElem?_map, hblock, Option.map_some, hp.numbered hblock, if_pos hb]

theorem through_eq {b : BlockId} {block : Block} (hblock : p.blocks[b]? = some block) (s : NatSet) :
    Liveness.through .slot p b s = liveFrom s block.jump block.body := by
  simp [Liveness.through, liveFrom, Proto.body, Proto.jump, hblock]

theorem after_inline (hp : p.WellShaped) (hplain : ∀ b ∈ p.blocks, b.plainCaptures = true)
    (hl : (Liveness.equations .slot hp).Solves l.after l.before)
    (hl' : (Liveness.equations .slot (hp.inline (l := l) (r := r))).Solves l'.after l'.before) {b : BlockId}
    (hb : (Flow.of p).isReachable b = true) : l'.after b = l.after b := by
  let E := Liveness.equations .slot hp
  let E' := Liveness.equations .slot (hp.inline (l := l) (r := r))
  have hsources (b : BlockId) : E'.sources b = E.sources b := congrArg (Flow.successors · b) flow_inline
  have horder : E'.order = E.order := congrArg (·.walk.postorder) flow_inline
  have hthrough (c : BlockId) (hc : c ∈ E.order) (s : NatSet) (hs : ∀ k ∈ s, k ∈ E.gather E.solution c) :
      E'.through c s = E.through c s := by
    rw [← hl.gathered c hc] at hs
    obtain ⟨block, hblock, hinlined⟩ := getElem?_inline (l := l) (r := r) hp ((Liveness.mem_order hp).1 hc)
    have hlive : liveFrom s (block.inline (r.contains c) (l.after c)).jump (block.inline (r.contains c) (l.after c)).body =
        liveFrom s block.jump block.body := Block.liveFrom_inline (hplain block (List.mem_of_getElem? hblock)) hs
    exact (through_eq hinlined s).trans (hlive.trans (through_eq hblock s).symm)
  have hbo : b ∈ E.order := (Liveness.mem_order hp).2 hb
  have hgather : E'.gather E'.solution b = E.gather E'.solution b := by
    rw [FlowEquations.gather, FlowEquations.gather, hsources]
    rfl
  rw [hl.gathered b hbo, hl'.gathered b (horder ▸ hbo)]
  refine hgather.trans (E.gather_congr fun c hc => ?_)
  exact E.solution_congr horder hsources (fun _ => rfl) hthrough (E.closed b hbo c hc)

theorem inline_settles (hplain : ∀ b ∈ p.blocks, b.plainCaptures = true)
    (hr : ∀ b s, r.contains b s = true → r'.contains b s = true)
    (hafter : ∀ b, (Flow.of p).isReachable b = true → l'.after b = l.after b) :
    (p.inline l r).1.inline l' r' = ((p.inline l r).1, 0) := by
  have hblocks : ((p.inline l r).1.inline l' r').1.blocks = (p.inline l r).1.blocks := by
    conv_rhs => rw [← List.map_id (p.inline l r).1.blocks]
    rw [blocks_inline, flow_inline]
    apply List.map_congr_left
    intro c hc
    rw [blocks_inline] at hc
    split
    · next hc' =>
      obtain ⟨b, hb, rfl⟩ := List.mem_map.1 hc
      split at hc'
      · next hreachable =>
        rw [if_pos hreachable]
        have hid : (b.inline (r.contains b.id) (l.after b.id)).id = b.id := rfl
        rw [hid, hafter _ hreachable]
        exact Block.inline_of_settles ((Block.settles_inline (hplain b hb)).mono (hr b.id))
      · next hunreachable => exact absurd hc' hunreachable
    · rfl
  have hsame : ((p.inline l r).1.inline l' r').1 = (p.inline l r).1 := with_blocks hblocks
  have hcount := stmtCount_inline (p.inline l r).1 l' r'
  rw [hsame] at hcount
  exact Prod.ext hsame (Nat.add_eq_right.1 hcount)

theorem inlined_eq_ok {x : Proto × Nat} (h : p.inlined rounds r = .ok x) :
    ∃ l, Liveness.solve .slot p rounds = .ok l ∧ p.inline l r = x := by
  unfold inlined at h
  cases hsolve : Liveness.solve .slot p rounds with
  | error e => rw [hsolve] at h; cases h
  | ok l =>
    rw [hsolve] at h
    exact ⟨l, rfl, Except.ok.inj h⟩

theorem inlined_again (hp : p.violation? = none) (hplain : ∀ b ∈ p.blocks, b.plainCaptures = true)
    (h : p.inlined rounds r = .ok (q, n)) (hr : ∀ b s, r.contains b s = true → r'.contains b s = true) :
    (∀ m x, q.inlined m r' = .ok x → x = (q, 0)) ∧ ∀ m, p.blocks.length + 2 ≤ m → q.inlined m r' = .ok (q, 0) := by
  have hshape := wellShaped_of_violation hp
  obtain ⟨l, hl, -, hunique⟩ := Liveness.exists_solve hshape .slot
  obtain ⟨k, hk, hinline⟩ := inlined_eq_ok h
  rw [hunique rounds k hk] at hinline
  obtain rfl : (p.inline l r).1 = q := congrArg Prod.fst hinline
  obtain ⟨l', hl', hsettles, hunique'⟩ := Liveness.exists_solve (hshape.inline (l := l) (r := r)) .slot
  have hagain : (p.inline l r).1.inline l' r' = ((p.inline l r).1, 0) :=
    inline_settles hplain hr fun b hb => after_inline hshape hplain hl hl' hb
  constructor
  · intro m x hx
    obtain ⟨k', hk', rfl⟩ := inlined_eq_ok hx
    rw [hunique' m k' hk']
    exact hagain
  · intro m hm
    rw [inlined, hsettles m (length_blocks_inline p l r ▸ hm)]
    exact congrArg Except.ok hagain

theorem ofBlock_subset {b c : Block} (hnames : q.debugNames = p.debugNames) (hid : c.id = b.id)
    (hcovers : ∀ n : DebugName, n.covers c = n.covers b)
    (hfree : (b.body.flatMap (·.operands)).flatMap (·.capturedSlots) = []) :
    Protected.ofBlock p b ⊆ Protected.ofBlock q c := by
  simp only [Protected.ofBlock, hnames, hid, hcovers, hfree, List.append_nil, List.map_append]
  exact List.subset_append_left _ _

/-- The whole step, with its protection found anew, changes nothing more once a function without captures in its
statements and without visible copies of loop variables went through it. -/
theorem inlined_idempotent (hp : p.violation? = none) (hplain : ∀ b ∈ p.blocks, b.plainCaptures = true)
    (hfree : ∀ b ∈ p.blocks, (b.body.flatMap (·.operands)).flatMap (·.capturedSlots) = [])
    (hcopies : loopVariableCopies p (.of p) = []) (h : p.inlined rounds (.of p (.of p)) = .ok (q, n)) :
    (∀ m x, q.inlined m (.of q (.of q)) = .ok x → x = (q, 0)) ∧
      ∀ m, p.blocks.length + 2 ≤ m → q.inlined m (.of q (.of q)) = .ok (q, 0) := by
  apply inlined_again hp hplain h
  obtain ⟨l, -, hinline⟩ := inlined_eq_ok h
  obtain rfl : (p.inline l (.of p (.of p))).1 = q := congrArg Prod.fst hinline
  have hpairs : (Protected.of p (.of p)).pairs ⊆
      (Protected.of (p.inline l (.of p (.of p))).1 (.of (p.inline l (.of p (.of p))).1)).pairs := by
    rw [Protected.of, hcopies, List.append_nil]
    apply List.Subset.trans _ (List.subset_append_left _ _)
    intro e he
    obtain ⟨b, hb, he⟩ := List.mem_flatMap.1 he
    refine List.mem_flatMap.2 ⟨_, blocks_inline p l _ ▸ List.mem_map_of_mem hb, ofBlock_subset rfl ?_ ?_ (hfree b hb) he⟩
    · split <;> rfl
    · intro n
      split <;> rfl
  intro b s hs
  simp only [Protected.contains, Bool.or_eq_true, List.contains_eq_mem, decide_eq_true_eq] at hs ⊢
  exact hs.imp_right fun hs => hpairs hs

def tested : Proto :=
  { id := 0, parameters := 1
    blocks := [
      ⟨0, 0, 0, [.store (.slot 1) (.global "a"), .store (.slot 2) (.call (.global "f") [.slot 1])],
        .branch (.slot 2) 1 1⟩,
      ⟨1, 1, 1, [.ret [.slot 0] 0], .leave⟩] }

theorem inlined_again_tested : ∃ q, tested.inlined 4 ⟨1, []⟩ = .ok (q, 2) ∧ q.inlined 4 ⟨1, []⟩ = .ok (q, 0) := by
  have h : tested.inlined 4 ⟨1, []⟩ = .ok
      ({ id := 0, parameters := 1
         blocks := [
          ⟨0, 0, 0, [], .branch (.call (.global "f") [.global "a"]) 1 1⟩,
          ⟨1, 1, 1, [.ret [.slot 0] 0], .leave⟩] }, 2) := by cbv
  exact ⟨_, h, (inlined_again (by cbv) (by decide) h fun _ _ hc => hc).2 4 (by decide)⟩

/-! Protection that is found anew may miss what the first pass knew: it carried the closure into the test, where
nobody looks for what is captured. -/

example :
    let p : Proto :=
      { id := 0
        blocks := [
          ⟨0, 0, 0, [.store (.slot 0) (.global "a"), .call (.global "f") [.slot 0] 0, .store (.slot 0) (.global "b"),
            .store (.slot 1) (.closure 0 [.slot 0])], .branch (.slot 1) 1 1⟩,
          ⟨1, 1, 1, [], .leave⟩] }
    let first := (p.inlined 4 (.of p (.of p))).toOption
    let second := first.bind fun r => (r.1.inlined 4 (.of r.1 (.of r.1))).toOption
    first.map (·.2) = some 1 ∧ second.map (·.2) = some 1 := by
  cbv

end Proto

end LuaLift
