import LuaLift.Proofs.Structure
import LuaLift.Proofs.Tree.Contents
import LuaLift.Proofs.Tree.Scoping

namespace LuaLift

namespace Plan

variable {pl : Plan} {T : Placed} {fr : List Frame} {task : Task} {body : Body} {placed : Placed}

theorem PlainLoop.headed {l : ShapedLoop} (h : pl.PlainLoop l) {wrap : Body → Node} {entry : BlockId}
    (hh : l.shape.headed? = some (wrap, entry)) : pl.proto.body l.header = [] ∧
      (pl.frame l).closing = none ∧ entry ∈ (pl.proto.jump l.header).targets ∧
      ∃ c, pl.proto.Asks l.header c ∧ wrap = .whileDo c := by
  unfold PlainLoop at h
  unfold LoopShape.headed? at hh
  split at hh
  · next c e w hs =>
    rw [hs] at h
    cases hh
    obtain ⟨hbody, hj | ⟨e, he, hj⟩⟩ := h
    · exact ⟨hbody, by simp [frame, hs], by simp [hj, Jump.targets], c, ⟨c, entry, w, hj, .inl rfl⟩, rfl⟩
    · exact ⟨hbody, by simp [frame, hs], by simp [hj, Jump.targets], c, ⟨e, w, entry, hj, .inr he⟩, rfl⟩
  · next hs =>
    rw [hs] at h
    exact h.elim
  · next hs =>
    rw [hs] at h
    exact h.elim
  · cases hh

theorem whole_cases {l : ShapedLoop} {wrap : Body → Node} (hw : pl.whole? l = some wrap) :
    (∃ latch c, (pl.frame l).closing = some latch ∧ pl.proto.Asks latch c ∧
      wrap = fun body => .repeatUntil body c) ∨
      (pl.frame l).closing = none ∧ wrap = .whileDo (.boolean true) := by
  unfold whole? at hw
  split at hw
  · next latch w hs =>
    obtain ⟨c, hc, rfl⟩ := Option.map_eq_some_iff.1 hw
    refine .inl ⟨latch, c, by simp [frame, hs], ?_, rfl⟩
    unfold untilTest? at hc
    split at hc
    · next e t f hj =>
      refine ⟨e, t, f, hj, ?_⟩
      rw [← Option.some.inj hc]
      split
      · exact .inr rfl
      · exact .inl rfl
    · cases hc
  · next hs =>
    cases hw
    exact .inr ⟨by simp [frame, hs], rfl⟩
  · cases hw

theorem Fits.isReachable_target (hpl : pl.Fits) {b t : BlockId} (hb : pl.flow.isReachable b = true)
    (ht : t ∈ (pl.proto.jump b).targets) : pl.flow.isReachable t = true := by
  apply hpl.rooted.isReachable_successor hb
  rw [hpl.successors]
  exact ht

theorem Fits.isReachable_mergePoint (hpl : pl.Fits) {b m : BlockId} (hb : pl.flow.isReachable b = true)
    (hm : pl.mergePoint? fr b = some m) : pl.flow.isReachable m = true := by
  have hmerge := (Option.filter_eq_some_iff.1 hm).1
  rw [hpl.merges] at hmerge
  exact hpl.rooted.isReachable_of_blocks hpl.reducible (hpl.rooted.blocks_of_mergePoint hmerge).1 hb

theorem Builds.isReachable (hpl : pl.Regular) (hfollow : ∀ (l : ShapedLoop) (w : BlockId),
      pl.loopAt? l.header = some l → l.shape.follow? = some w → pl.flow.isReachable w = true)
    (h : pl.Builds fr task body placed) (ht : ∀ t, task.target? = some t → pl.flow.isReachable t = true) :
    ∀ b ∈ placed.map Prod.fst, pl.flow.isReachable b = true := by
  induction h with
  | absent => simp
  | stopped => simp
  | header => simp
  | follow => simp
  | loop _ _ hn _ ihn ihr =>
    rw [List.map_append, List.forall_mem_append]
    exact ⟨ihn ht, ihr fun w hw => hfollow _ w hn.loopAt hw⟩
  | block _ _ _ _ ih => exact ih ht
  | closing => simpa using ht _ rfl
  | leave => simpa using ht _ rfl
  | always _ hj _ ih =>
    rw [List.map_cons, List.forall_mem_cons]
    refine ⟨ht _ rfl, ih fun w hw => ?_⟩
    cases hw
    exact hpl.isReachable_target (ht _ rfl) (by simp [hj, Jump.targets])
  | branch _ hj _ _ _ iht ihe ihr =>
    have hb := ht _ rfl
    simp only [List.map_cons, List.map_append, List.forall_mem_cons, List.forall_mem_append]
    refine ⟨hb, iht fun w hw => ?_, ihe fun w hw => ?_, ihr fun w hw => ?_⟩
    · cases hw
      exact hpl.isReachable_target hb (by simp [hj, Jump.targets])
    · cases hw
      exact hpl.isReachable_target hb (by simp [hj, Jump.targets])
    · exact hpl.isReachable_mergePoint hb hw
  | headed hl hh _ ih =>
    rw [List.map_cons, List.forall_mem_cons]
    refine ⟨ht _ rfl, ih fun w hw => ?_⟩
    cases hw
    exact hpl.isReachable_target (ht _ rfl) ((hpl.plain hl).headed hh).2.2.1
  | whole _ _ _ ih => exact ih ht

def asking (pl : Plan) (T : Placed) : List BlockId :=
  (T.filter fun x => (pl.proto.jump x.1).condition?.isSome && closing? x.2 ≠ some x.1).map Prod.fst

def latch? (b : BlockId) : List Frame → Option BlockId
  | [] => none
  | F :: _ => if F.header = b then F.closing else none

def latches (T : Placed) : List BlockId := T.filterMap fun x => latch? x.1 x.2

def inner : Task → Placed → Placed
  | .region _ _, T | .loop _, T => T
  | .place _ _, T => T.tail

theorem Builds.exists_tail {stop : Option BlockId} {b : BlockId} (h : pl.Builds fr (.place stop b) body placed) :
    ∃ later, placed = (b, fr) :: later := by
  cases h <;> exact ⟨_, rfl⟩

theorem latches_cons (b : BlockId) (fr : List Frame) (T : Placed) :
    latches ((b, fr) :: T) = (latch? b fr).toList ++ latches T := by
  simp only [latches, List.filterMap_cons]
  cases latch? b fr <;> rfl

theorem latches_append (T U : Placed) : latches (T ++ U) = latches T ++ latches U := List.filterMap_append

theorem latch?_of_inside {b : BlockId} (ha : Frame.arrive b fr = .inside) : latch? b fr = none := by
  cases fr with
  | nil => rfl
  | cons F outer => exact if_neg (Frame.arrive_inside ha (.head _)).1

theorem latch?_header (l : ShapedLoop) : latch? l.header (pl.frame l :: fr) = (pl.frame l).closing := if_pos rfl

theorem asking_append (T U : Placed) : pl.asking (T ++ U) = pl.asking T ++ pl.asking U := by
  rw [asking, List.filter_append, List.map_append]
  rfl

theorem asking_cons_of_closing {b : BlockId} (hc : closing? fr = some b) (T : Placed) :
    pl.asking ((b, fr) :: T) = pl.asking T := by
  simp [asking, hc]

theorem asking_cons_of_untested {b : BlockId} (hj : (pl.proto.jump b).condition? = none) (T : Placed) :
    pl.asking ((b, fr) :: T) = pl.asking T := by
  simp [asking, hj]

theorem asking_cons_of_branch {b t e : BlockId} {c : Expr} (hj : pl.proto.jump b = .branch c t e)
    (hc : closing? fr ≠ some b) (T : Placed) : pl.asking ((b, fr) :: T) = b :: pl.asking T := by
  simp [asking, hj, Jump.condition?, hc]

theorem asked_append {ts us : List (BlockId × Expr)} {T T' U U' : Placed}
    (h : (ts.map Prod.fst).Perm (pl.asking T ++ latches U))
    (h' : (us.map Prod.fst).Perm (pl.asking T' ++ latches U')) :
    ((ts ++ us).map Prod.fst).Perm (pl.asking (T ++ T') ++ latches (U ++ U')) := by
  rw [List.map_append, asking_append, latches_append]
  refine (h.append h').trans ?_
  simp only [List.append_assoc]
  exact (List.perm_append_comm_assoc _ _ _).append_left _

theorem comprises_conditional {p : Proto} {b t e : BlockId} {c : Expr} {onTrue onFalse rest : Body}
    {bs bs' bs'' : List BlockId} {ts ts' ts'' : List (BlockId × Expr)} (hj : p.jump b = .branch c t e)
    (ht : p.Comprises onTrue bs ts) (he : p.Comprises onFalse bs' ts') (hr : p.Comprises rest bs'' ts'') :
    ∃ us, p.Comprises (conditional c onTrue onFalse :: rest) (bs ++ (bs' ++ bs'')) us ∧
      (us.map Prod.fst).Perm (b :: (ts ++ (ts' ++ ts'')).map Prod.fst) := by
  have ha : p.Asks b c := ⟨c, t, e, hj, .inl rfl⟩
  have hn : p.Asks b c.negate := ⟨c, t, e, hj, .inr rfl⟩
  unfold conditional
  split
  · next hf =>
    cases List.isEmpty_iff.1 hf
    exact ⟨_, .single rfl rfl ha ht (he.append hr), .refl _⟩
  · split
    · next hf =>
      cases List.isEmpty_iff.1 hf
      refine ⟨_, ht.append (.single rfl rfl hn he hr), ?_⟩
      simp only [List.map_append, List.map_cons]
      exact List.perm_middle
    · exact ⟨_, .double ha ht he hr, .refl _⟩

theorem Builds.comprises (hpl : pl.Regular) (h : pl.Builds fr task body placed) :
    ∃ ts, pl.proto.Comprises body (placed.map Prod.fst) ts ∧
      (ts.map Prod.fst).Perm (pl.asking placed ++ latches (inner task placed)) := by
  induction h with
  | absent | stopped | header => exact ⟨[], .nil, .refl _⟩
  | follow => exact ⟨[], .brk .nil, .refl _⟩
  | loop _ _ _ _ ihn ihr =>
    obtain ⟨ts, hn, hts⟩ := ihn
    obtain ⟨us, hr, hus⟩ := ihr
    refine ⟨ts ++ us, ?_, asked_append hts hus⟩
    rw [List.map_append]
    exact hn.append hr
  | block _ ha _ hb ih =>
    obtain ⟨ts, hc, hts⟩ := ih
    refine ⟨ts, hc, ?_⟩
    obtain ⟨later, rfl⟩ := hb.exists_tail
    simp only [inner, latches_cons, latch?_of_inside ha]
    exact hts
  | @closing fr stop b hc =>
    refine ⟨[], by simpa using Proto.Comprises.block b .nil, ?_⟩
    rw [asking_cons_of_closing hc]
    exact .refl _
  | @leave fr stop b hc hj =>
    refine ⟨[], by simpa using Proto.Comprises.block b .nil, ?_⟩
    rw [asking_cons_of_untested (by rw [hj]; rfl)]
    exact .refl _
  | always hc hj _ ih =>
    obtain ⟨ts, hr, hts⟩ := ih
    refine ⟨ts, .block _ hr, ?_⟩
    rw [asking_cons_of_untested (by rw [hj]; rfl)]
    exact hts
  | @branch fr stop b t e c onTrue onFalse rest first second placed hc hj _ _ _ iht ihe ihr =>
    obtain ⟨ts, ht, hts⟩ := iht
    obtain ⟨ts', he, hts'⟩ := ihe
    obtain ⟨ts'', hr, hts''⟩ := ihr
    obtain ⟨us, hus, hperm⟩ := comprises_conditional hj ht he hr
    refine ⟨us, by simpa using Proto.Comprises.block b hus, hperm.trans ?_⟩
    rw [asking_cons_of_branch hj hc]
    exact (asked_append hts (asked_append hts' hts'')).cons b
  | @headed fr l wrap entry body placed hl hh _ ih =>
    obtain ⟨ts, hc, hts⟩ := ih
    obtain ⟨hempty, hclosing, -, c, ha, rfl⟩ := (hpl.plain hl).headed hh
    refine ⟨(l.header, c) :: ts, ?_, ?_⟩
    · have := Proto.Comprises.block l.header (.single (n := .whileDo c body) rfl rfl ha hc .nil)
      simpa [hempty] using this
    · obtain ⟨e, t, f, hj, -⟩ := ha
      have hnot : closing? (pl.frame l :: fr) ≠ some l.header := by simp [closing?, hclosing]
      rw [asking_cons_of_branch hj hnot, inner, latches_cons, latch?_header, hclosing]
      exact hts.cons _
  | @whole fr l wrap body placed hl hw hb ih =>
    obtain ⟨ts, hc, hts⟩ := ih
    obtain ⟨later, rfl⟩ := hb.exists_tail
    rw [inner, List.tail_cons] at hts
    rw [inner, latches_cons, latch?_header]
    obtain ⟨latch, c, hclosing, ha, rfl⟩ | ⟨hclosing, rfl⟩ := whole_cases hw
    · refine ⟨(latch, c) :: ts, ?_, ?_⟩
      · simpa using Proto.Comprises.single (n := .repeatUntil body c) rfl rfl ha hc .nil
      · rw [hclosing]
        exact (hts.cons latch).trans List.perm_middle.symm
    · refine ⟨ts, ?_, ?_⟩
      · simpa using Proto.Comprises.endless hc .nil
      · rw [hclosing]
        exact hts

namespace Layout

variable (hT : pl.Layout T) (hpl : pl.Fits)
include hT hpl

theorem frame_of_latch {b x : BlockId} (hb : (b, fr) ∈ T) (hx : latch? b fr = some x) :
    ∃ l outer, l.header = b ∧ (pl.frame l).closing = some x ∧ (x, pl.frame l :: outer) ∈ T := by
  cases (hT.placed hb).nested with
  | nil => cases hx
  | @cons l outer hl hh hw hn =>
    obtain ⟨hlb, hc⟩ : l.header = b ∧ (pl.frame l).closing = some x := by
      by_cases hlb : l.header = b
      · exact ⟨hlb, (if_pos hlb).symm.trans hx⟩
      · rw [latch?, if_neg (show (pl.frame l).header ≠ b from hlb)] at hx
        cases hx
    obtain ⟨w, hs⟩ := closing_shape hc
    -- The latch is in the body of the loop, and it is the block that ends the frame.
    obtain ⟨latches, hloop⟩ := (hpl.loops hl).isLoop
    obtain ⟨a, ha⟩ := hloop.exists_latch
    obtain rfl : a = x := ((hpl.loops hl).closing hs).1 a ha
    obtain ⟨fr', hx', hF⟩ := hT.frame_of_mem_body hpl hl hh (hloop.latch_mem hpl.rooted ha)
    obtain ⟨outer', rfl⟩ := hT.closing_frame hpl hl hx' hF hc
    exact ⟨l, outer', hlb, hc, hx'⟩

theorem mem_latches {x : BlockId} : x ∈ latches T ↔ ∃ fr, (x, fr) ∈ T ∧ closing? fr = some x := by
  simp only [latches, List.mem_filterMap]
  constructor
  · rintro ⟨⟨b, fr⟩, hb, hx⟩
    obtain ⟨l, outer, -, hc, hx'⟩ := hT.frame_of_latch hpl hb hx
    exact ⟨_, hx', hc⟩
  · rintro ⟨fr, hx, hc⟩
    cases hn : fr with
    | nil =>
      rw [hn] at hc
      cases hc
    | cons F outer =>
      subst hn
      obtain ⟨l, outer', rfl, hl, -, hh⟩ := (hT.placed hx).nested.suffix (.head _)
      exact ⟨_, hh, (latch?_header l).trans hc⟩

theorem nodup_latches : (latches T).Nodup := by
  apply List.pairwise_filterMap.2
  apply (List.pairwise_map.1 hT.nodup).imp_of_mem
  rintro ⟨b, fr⟩ ⟨b', fr'⟩ hb hb' hne x hx y hy rfl
  obtain ⟨l, outer, hl, -, hx⟩ := hT.frame_of_latch hpl hb hx
  obtain ⟨l', outer', hl', -, hy⟩ := hT.frame_of_latch hpl hb' hy
  have hframe := (List.cons.inj (hT.unique hx hy)).1
  exact hne (hl.symm.trans ((congrArg Frame.header hframe).trans hl'))

theorem isSome_of_closing {b : BlockId} (hb : (b, fr) ∈ T) (hc : closing? fr = some b) :
    (pl.proto.jump b).condition?.isSome = true := by
  cases (hT.placed hb).nested with
  | nil => cases hc
  | @cons l outer hl hh hw hn =>
    obtain ⟨w, hs⟩ := closing_shape hc
    obtain ⟨c, hj | hj⟩ := ((hpl.loops hl).closing hs).2
    · rw [hj]
      rfl
    · rw [hj]
      rfl

theorem asking_perm : (pl.asking T ++ latches T).Perm
    ((T.map Prod.fst).filter fun b => (pl.proto.jump b).condition?.isSome) := by
  -- A placed test either ends the loop of its innermost frame or is made where it stands.
  let asks : BlockId × List Frame → Bool := fun x => (pl.proto.jump x.1).condition?.isSome
  let ahead : BlockId × List Frame → Bool := fun x => closing? x.2 ≠ some x.1
  have hask : pl.asking T = ((T.filter asks).filter ahead).map Prod.fst := by
    rw [asking, List.filter_filter]
    congr 2
    funext x
    exact Bool.and_comm _ _
  have hlatch : (latches T).Perm (((T.filter asks).filter (!ahead ·)).map Prod.fst) := by
    apply (List.perm_ext_iff_of_nodup (hT.nodup_latches hpl) ?_).2
    · intro x
      rw [hT.mem_latches hpl, List.mem_map]
      constructor
      · rintro ⟨fr, hx, hc⟩
        refine ⟨(x, fr), ?_, rfl⟩
        simp [asks, ahead, hx, hc, hT.isSome_of_closing hpl hx hc]
      · rintro ⟨⟨y, fr⟩, hy, rfl⟩
        simp only [asks, ahead, List.mem_filter, decide_not, Bool.not_not, decide_eq_true_eq] at hy
        exact ⟨fr, hy.1.1, hy.2⟩
    · exact hT.nodup.sublist ((List.filter_sublist.trans List.filter_sublist).map _)
  rw [hask, List.filter_map]
  apply (hlatch.append_left _).trans
  rw [← List.map_append]
  exact (List.filter_append_perm ahead _).map _

end Layout

theorem endsAll_stmts {l : List Stmt} (hl : ∀ s ∈ l, s.isReturn = false) {inLoop : Bool} {rest : Body}
    (hr : Node.EndsAll inLoop rest) : Node.EndsAll inLoop (l.map .stmt ++ rest) := by
  induction l with
  | nil => exact hr
  | cons s l ih =>
    refine ⟨fun hs => ?_, ih fun u hu => hl u (.tail _ hu)⟩
    rw [hl s (.head _)] at hs
    cases hs

theorem endsAll_last {l : List Stmt} (hl : ∀ (l' r : List Stmt) (s : Stmt), l = l' ++ s :: r →
    s.isReturn = true → r = []) {inLoop : Bool} : Node.EndsAll inLoop (l.map .stmt) := by
  induction l with
  | nil => trivial
  | cons s l ih =>
    refine ⟨fun hs => ?_, ih fun l' r u he => hl (s :: l') r u (by rw [he]; rfl)⟩
    rw [hl [] l s rfl hs]
    rfl

theorem ends_conditional {c : Expr} {onTrue onFalse : Body} {inLoop isLast : Bool}
    (ht : Node.EndsAll inLoop onTrue) (hf : Node.EndsAll inLoop onFalse) :
    Node.Ends inLoop isLast (conditional c onTrue onFalse) := by
  unfold conditional
  split
  · exact ht
  · split
    · exact hf
    · exact ⟨ht, hf⟩

theorem Builds.isLoop {l : ShapedLoop} {node : Node} (h : pl.Builds fr (.loop l) [node] placed) :
    node.isLoop = true := by
  cases h with
  | headed _ hh =>
    unfold LoopShape.headed? at hh
    split at hh <;> cases hh <;> rfl
  | whole _ hw =>
    obtain ⟨-, c, -, -, rfl⟩ | ⟨-, rfl⟩ := whole_cases hw <;> rfl

theorem ends_of_isLoop {n : Node} (hn : n.isLoop = true) {inLoop inLoop' isLast isLast' : Bool}
    (h : Node.Ends inLoop isLast n) : Node.Ends inLoop' isLast' n := by
  cases n with
  | stmt | brk | scope | ifThen | ifElse => cases hn
  | _ => exact h

theorem Builds.endsAll (hpl : pl.Regular) (h : pl.Builds fr task body placed) :
    Node.EndsAll (!fr.isEmpty) body := by
  induction h with
  | absent => trivial
  | stopped => trivial
  | header => trivial
  | follow _ ha =>
    obtain ⟨F, outer, rfl, -⟩ := Frame.arrive_follow ha
    exact ⟨⟨rfl, rfl⟩, trivial⟩
  | loop _ _ hn _ ihn ihr =>
    exact ⟨ends_of_isLoop hn.isLoop ihn.1, ihr⟩
  | block _ _ _ _ ih => exact ih
  | closing =>
    apply endsAll_last
    exact fun l' r s he hs => (hpl.returns he hs).1
  | leave =>
    apply endsAll_last
    exact fun l' r s he hs => (hpl.returns he hs).1
  | always _ hj _ ih =>
    apply endsAll_stmts _ ih
    exact hpl.undisturbed (by simp [hj, Jump.targets])
  | branch _ hj _ _ _ iht ihe ihr =>
    apply endsAll_stmts
    · exact hpl.undisturbed (by simp [hj, Jump.targets])
    · exact ⟨ends_conditional iht ihe, ihr⟩
  | headed _ hh _ ih =>
    unfold LoopShape.headed? at hh
    split at hh <;> cases hh <;> exact ⟨ih, trivial⟩
  | whole _ hw _ ih =>
    obtain ⟨-, c, -, -, rfl⟩ | ⟨-, rfl⟩ := whole_cases hw <;> exact ⟨ih, trivial⟩

theorem Regular.contents (hpl : pl.Regular) (hfollow : ∀ (l : ShapedLoop) (w : BlockId),
      pl.loopAt? l.header = some l → l.shape.follow? = some w → pl.flow.isReachable w = true)
    (h : pl.build = .ok body) : ∃ bs ts, pl.proto.Comprises body bs ts ∧ bs.Perm pl.flow.order ∧
      (ts.map Prod.fst).Perm (pl.flow.order.filter fun b => (pl.proto.jump b).condition?.isSome) ∧
      Node.EndsAll false body := by
  obtain ⟨T, hb, hT, hall⟩ := hpl.exists_layout h
  obtain ⟨ts, hc, hts⟩ := hb.comprises hpl
  have hreach := hb.isReachable hpl hfollow fun t ht => by
    cases ht
    exact hpl.rooted.isReachable_iff.2 .refl
  have hperm : (T.map Prod.fst).Perm pl.flow.order := by
    apply (List.perm_ext_iff_of_nodup hT.nodup pl.flow.nodup_order).2
    intro b
    rw [Flow.mem_order]
    exact ⟨hreach b, hall b⟩
  refine ⟨_, ts, hc, hperm, ?_, hb.endsAll hpl⟩
  exact (hts.trans (hT.asking_perm hpl.toFits)).trans (hperm.filter _)

end Plan

namespace Proto

/-- Every block in reach has its statements in the tree once, in one piece, and its test once as a
condition; the other conditions are those of endless loops. A `break` is in a loop, and exits come last. -/
theorem structure_contents {o : Options} (ho : o.skipForLoops = true) {p : Proto}
    (hp : p.violation? = none) {t : Locals} {r : Routine} (hr : p.structure? o t = .ok r) :
    ∃ bs ts n, (p.shortened o).Comprises r.body bs ts ∧
      bs.Perm (Flow.of (p.shortened o)).order ∧
      (ts.map Prod.fst).Perm ((Flow.of (p.shortened o)).order.filter fun b =>
        ((p.shortened o).jump b).condition?.isSome) ∧
      (Node.statements r.body).Perm ((Flow.of (p.shortened o)).order.flatMap (p.shortened o).body) ∧
      (Node.conditions r.body).Perm (ts.map Prod.snd ++ List.replicate n (.boolean true)) ∧
      Node.EndsAll false r.body := by
  have hq := (shortened_folds o (m := Meaning.counting) (wellShaped_of_violation hp)).wellShaped
  obtain ⟨hred, hbuild⟩ := structure?_eq_ok ho hr
  have hpl : (Plan.plain (p.shortened o) t).Regular := Plan.plain_regular hq hred
  obtain ⟨bs, ts, hc, hbs, hts, hends⟩ :=
    hpl.contents (fun l w hl hw => Plan.plain_isReachable_follow hq hl hw) hbuild
  obtain ⟨n, hn⟩ := hc.conditions_perm
  refine ⟨bs, ts, n, hc, hbs, hts, ?_, hn, hends⟩
  rw [hc.statements_eq]
  exact hbs.flatMap_right _

def polling : Proto :=
  { id := 0
    blocks := [
      ⟨0, 0, 0, [], .branch (.global "a") 1 4⟩,
      ⟨1, 0, 0, [.call (.global "f") [] 0], .always 2⟩,
      ⟨2, 0, 0, [.call (.global "g") [] 0], .branch (.global "b") 3 2⟩,
      ⟨3, 0, 0, [.call (.global "h") [] 0], .always 0⟩,
      ⟨4, 0, 0, [.ret [] 0], .leave⟩] }

theorem structure_contents_polling : ∃ r, polling.structure? { skipForLoops := true } ∅ = .ok r ∧
    ∃ bs ts, (polling.shortened { skipForLoops := true }).Comprises r.body bs ts ∧ bs.length = 5 ∧
      ts.length = 2 ∧ (Node.statements r.body).length = 4 := by
  have hok : (polling.structure? { skipForLoops := true } ∅).isOk = true := by cbv
  cases h : polling.structure? { skipForLoops := true } ∅ with
  | error e => simp [h, Except.isOk, Except.toBool] at hok
  | ok r =>
    obtain ⟨bs, ts, n, hc, hbs, hts, hstmts, -, -⟩ := structure_contents rfl (by cbv) h
    refine ⟨r, rfl, bs, ts, hc, ?_, ?_, ?_⟩
    · rw [hbs.length_eq]
      cbv
    · rw [← List.length_map (f := Prod.fst), hts.length_eq]
      cbv
    · rw [hstmts.length_eq]
      cbv

end Proto

end LuaLift
