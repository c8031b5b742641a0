import LuaLift.Proofs.Flow.MergePoints
import LuaLift.Proofs.Region.Derivation
import Mathlib.Data.List.Nodup

namespace LuaLift

namespace Plan

structure LoopFits (pl : Plan) (l : ShapedLoop) : Prop where
  isLoop : ∃ latches, pl.flow.IsLoop ⟨l.header, latches, l.body⟩
  follow : ∀ {w : BlockId}, l.shape.follow? = some w → w ∉ l.body
  headed : ∀ {wrap : Body → Node} {entry : BlockId}, l.shape.headed? = some (wrap, entry) →
    ∀ w ∈ (pl.proto.jump l.header).targets, w = entry ∨ l.shape.follow? = some w
  closing : ∀ {latch w : BlockId}, l.shape = .posttest latch w →
    (∀ a, pl.flow.BackEdge a l.header → a = latch) ∧
      ∃ c, pl.proto.jump latch = .branch c l.header w ∨ pl.proto.jump latch = .branch c w l.header

structure Fits (pl : Plan) : Prop where
  rooted : pl.flow.Rooted
  reducible : pl.flow.Reducible
  successors : ∀ b, pl.flow.successors b = (pl.proto.jump b).targets
  merges : pl.merges = pl.flow.mergePoints pl.flow.dominance
  loops : ∀ {l : ShapedLoop}, pl.loopAt? l.header = some l → pl.LoopFits l

/-- Where an edge out of some frames arrives: it leaves loops whose follow it is, and then finds its
target placed in the frames that are left, perhaps as the header of one more loop. -/
def Settles (pl : Plan) (T : Placed) (fr : List Frame) (w : BlockId) : Prop :=
  ∃ left kept, fr = left ++ kept ∧ (∀ F ∈ left, F.follow = some w) ∧
    ((w, kept) ∈ T ∨ ∃ l, pl.loopAt? w = some l ∧ (w, pl.frame l :: kept) ∈ T)

inductive Nested (pl : Plan) (T : Placed) : List Frame → Prop
  | nil : Nested pl T []
  | cons {l : ShapedLoop} {fr : List Frame} (hl : pl.loopAt? l.header = some l)
      (hh : (l.header, pl.frame l :: fr) ∈ T)
      (hw : ∀ w, l.shape.follow? = some w → pl.Settles T fr w) (hn : Nested pl T fr) :
      Nested pl T (pl.frame l :: fr)

structure WellPlaced (pl : Plan) (T : Placed) (b : BlockId) (fr : List Frame) : Prop where
  nested : pl.Nested T fr
  follow : ∀ F ∈ fr, F.follow ≠ some b
  settles : ∀ w ∈ (pl.proto.jump b).targets, pl.Settles T fr w

end Plan

namespace Frame

variable {b : BlockId} {fr : List Frame}

theorem arrive_header (h : arrive b fr = .header) : ∃ F outer, fr = F :: outer ∧ F.header = b := by
  unfold arrive at h
  split at h
  · cases h
  · next F outer =>
    split at h
    · next hb => exact ⟨F, outer, rfl, hb.symm⟩
    · split at h
      · cases h
      · split at h <;> cases h

theorem arrive_follow (h : arrive b fr = .follow) : ∃ F outer, fr = F :: outer ∧ F.follow = some b := by
  unfold arrive at h
  split at h
  · cases h
  · next F outer =>
    split at h
    · cases h
    · split at h
      · next hb => exact ⟨F, outer, rfl, hb⟩
      · split at h <;> cases h

theorem arrive_inside (h : arrive b fr = .inside) {F : Frame} (hF : F ∈ fr) :
    F.header ≠ b ∧ F.follow ≠ some b := by
  unfold arrive at h
  split at h
  · cases hF
  · next E outer =>
    split at h
    · cases h
    · next hh =>
      split at h
      · cases h
      · next hw =>
        split at h
        · cases h
        · next hn =>
          rcases List.mem_cons.1 hF with rfl | hF
          · exact ⟨Ne.symm hh, hw⟩
          · have := List.find?_eq_none.1 hn F (List.mem_reverse.2 hF)
            simp only [isEdge, Bool.or_eq_true, beq_iff_eq, not_or] at this
            exact ⟨Ne.symm this.1, this.2⟩

end Frame

namespace Plan

variable {pl : Plan} {T : Placed} {fr : List Frame}

theorem Settles.of_follow {F : Frame} {w : BlockId} (hF : F.follow = some w) (h : pl.Settles T fr w) :
    pl.Settles T (F :: fr) w := by
  obtain ⟨left, kept, rfl, hl, hk⟩ := h
  refine ⟨F :: left, kept, rfl, fun E hE => ?_, hk⟩
  rcases List.mem_cons.1 hE with rfl | hE
  · exact hF
  · exact hl E hE

theorem Settles.of_mem {w : BlockId} (h : (w, fr) ∈ T) : pl.Settles T fr w :=
  ⟨[], fr, rfl, by simp, .inl h⟩

theorem Settles.opens {l : ShapedLoop} (hl : pl.loopAt? l.header = some l)
    (h : (l.header, pl.frame l :: fr) ∈ T) : pl.Settles T fr l.header :=
  ⟨[], fr, rfl, by simp, .inr ⟨l, hl, h⟩⟩

theorem LoopFits.header_mem {l : ShapedLoop} (h : pl.LoopFits l) (hpl : pl.Fits) : l.header ∈ l.body := by
  obtain ⟨latches, hl⟩ := h.isLoop
  exact hl.header_mem hpl.rooted

theorem LoopFits.closing_targets {l : ShapedLoop} (h : pl.LoopFits l) {latch w : BlockId}
    (hs : l.shape = .posttest latch w) :
    w ∈ (pl.proto.jump latch).targets ∧ l.header ∈ (pl.proto.jump latch).targets := by
  obtain ⟨c, hj | hj⟩ := (h.closing hs).2 <;> simp [hj, Jump.targets]

theorem LoopFits.clear {l : ShapedLoop} (h : pl.LoopFits l) (hpl : pl.Fits)
    (hfr : ∀ F ∈ fr, F.follow ≠ some l.header) : ∀ F ∈ pl.frame l :: fr, F.follow ≠ some l.header := by
  intro F hF
  rcases List.mem_cons.1 hF with rfl | hF
  · exact fun hw => h.follow hw (h.header_mem hpl)
  · exact hfr F hF

theorem Builds.mem_placed {stop : Option BlockId} {b : BlockId} {body : Body} {placed : Placed}
    (h : pl.Builds fr (.place stop b) body placed) : (b, fr) ∈ placed := by
  cases h <;> exact .head _

theorem Builds.loopAt {l : ShapedLoop} {body : Body} {placed : Placed}
    (h : pl.Builds fr (.loop l) body placed) : pl.loopAt? l.header = some l := by
  cases h with
  | headed hl => exact hl
  | whole hl => exact hl

theorem Builds.mem_header {l : ShapedLoop} {body : Body} {placed : Placed}
    (h : pl.Builds fr (.loop l) body placed) : (l.header, pl.frame l :: fr) ∈ placed := by
  cases h with
  | headed => exact .head _
  | whole _ _ hb => exact hb.mem_placed

def Clear (fr : List Frame) : Task → Prop
  | .region _ _ => True
  | .place _ b => ∀ F ∈ fr, F.follow ≠ some b
  | .loop l => ∀ F ∈ fr, F.follow ≠ some l.header

theorem closing_shape {l : ShapedLoop} {b : BlockId} (h : (pl.frame l).closing = some b) :
    ∃ w, l.shape = .posttest b w := by
  simp only [frame] at h
  split at h
  · next latch w hs =>
    cases h
    exact ⟨w, hs⟩
  · cases h

theorem Nested.settles_closing (hpl : pl.Fits) (hn : pl.Nested T fr) {b : BlockId}
    (hc : closing? fr = some b) : ∀ w ∈ (pl.proto.jump b).targets, pl.Settles T fr w := by
  cases hn with
  | nil => cases hc
  | @cons l fr hl hh hw hn =>
    obtain ⟨w, hs⟩ := closing_shape hc
    have hw' : l.shape.follow? = some w := by rw [hs]; rfl
    have header : pl.Settles T (pl.frame l :: fr) l.header := .of_mem hh
    have follow : pl.Settles T (pl.frame l :: fr) w := (hw w hw').of_follow hw'
    obtain ⟨c, hj | hj⟩ := ((hpl.loops hl).closing hs).2
    all_goals
      intro v hv
      rw [hj] at hv
      simp only [Jump.targets, List.mem_cons, List.not_mem_nil, or_false] at hv
      rcases hv with rfl | rfl <;> assumption

theorem Builds.settles {task : Task} {body : Body} {placed : Placed} (h : pl.Builds fr task body placed)
    (hT : placed ⊆ T) (hn : pl.Nested T fr) (hexit : ∀ m, task.exit? = some m → pl.Settles T fr m)
    {t : BlockId} (ht : task.target? = some t) : pl.Settles T fr t := by
  cases h with
  | absent => cases ht
  | stopped => exact hexit t ht
  | header hs ha =>
    obtain ⟨F, outer, rfl, rfl⟩ := Frame.arrive_header ha
    cases ht
    cases hn with
    | cons hl hh hw hn => exact .of_mem hh
  | follow hs ha =>
    obtain ⟨F, outer, rfl, hF⟩ := Frame.arrive_follow ha
    cases ht
    cases hn with
    | cons hl hh hw hn => exact (hw _ hF).of_follow hF
  | loop hs ha hb hr =>
    cases ht
    exact .opens hb.loopAt (hT (List.mem_append_left _ hb.mem_header))
  | block hs ha hl hb =>
    cases ht
    exact .of_mem (hT hb.mem_placed)
  | closing | leave | always | branch =>
    cases ht
    exact .of_mem (hT (.head _))
  | headed hl =>
    cases ht
    exact .opens hl (hT (.head _))
  | whole hl hw hb =>
    cases ht
    exact .opens hl (hT hb.mem_placed)

theorem Builds.wellPlaced (hpl : pl.Fits) {task : Task} {body : Body} {placed : Placed}
    (h : pl.Builds fr task body placed) (hT : placed ⊆ T) (hn : pl.Nested T fr)
    (hexit : ∀ m, task.exit? = some m → pl.Settles T fr m) (hclear : Clear fr task) :
    ∀ x ∈ placed, pl.WellPlaced T x.1 x.2 := by
  induction h with
  | absent | stopped | header | follow => simp
  | @loop fr stop l node rest placed later hs ha hb hr ihb ihr =>
    rw [List.append_subset] at hT
    have hfollow : ∀ w, l.shape.follow? = some w → pl.Settles T fr w := fun _ => hr.settles hT.2 hn hexit
    have hclear' : ∀ F ∈ fr, F.follow ≠ some l.header := fun F hF => (Frame.arrive_inside ha hF).2
    exact List.forall_mem_append.2 ⟨ihb hT.1 hn hfollow hclear', ihr hT.2 hn hexit trivial⟩
  | block hs ha hl hb ih =>
    exact ih hT hn hexit fun F hF => (Frame.arrive_inside ha hF).2
  | closing hc =>
    exact List.forall_mem_singleton.2 ⟨hn, hclear, hn.settles_closing hpl hc⟩
  | leave hc hj =>
    exact List.forall_mem_singleton.2 ⟨hn, hclear, by simp [hj, Jump.targets]⟩
  | always hc hj hr ih =>
    rw [List.cons_subset] at hT
    refine List.forall_mem_cons.2 ⟨⟨hn, hclear, fun w hw => ?_⟩, ih hT.2 hn hexit trivial⟩
    obtain rfl : w = _ := by simpa [hj, Jump.targets] using hw
    exact hr.settles hT.2 hn hexit rfl
  | @branch fr stop b t e c onTrue onFalse rest first second placed hc hj ht he hr iht ihe ihr =>
    simp only [List.cons_subset, List.append_subset] at hT
    obtain ⟨hb, h1, h2, h3⟩ := hT
    have hmerge : ∀ w, pl.mergePoint? fr b = some w → pl.Settles T fr w := fun _ => hr.settles h3 hn hexit
    refine List.forall_mem_cons.2 ⟨⟨hn, hclear, fun w hw => ?_⟩, ?_⟩
    · rw [hj] at hw
      simp only [Jump.targets, List.mem_cons, List.not_mem_nil, or_false] at hw
      rcases hw with rfl | rfl
      · exact ht.settles h1 hn hmerge rfl
      · exact he.settles h2 hn hmerge rfl
    · exact List.forall_mem_append.2 ⟨iht h1 hn hmerge trivial,
        List.forall_mem_append.2 ⟨ihe h2 hn hmerge trivial, ihr h3 hn hexit trivial⟩⟩
  | @headed fr l wrap entry body placed hl hh hb ih =>
    rw [List.cons_subset] at hT
    have hn' : pl.Nested T (pl.frame l :: fr) := .cons hl hT.1 hexit hn
    have hnone : ∀ m, Task.exit? (.region none (some entry)) = some m → pl.Settles T (pl.frame l :: fr) m := by
      simp [Task.exit?]
    refine List.forall_mem_cons.2
      ⟨⟨hn', (hpl.loops hl).clear hpl hclear, fun w hw => ?_⟩, ih hT.2 hn' hnone trivial⟩
    rcases (hpl.loops hl).headed hh w hw with rfl | hw
    · exact hb.settles hT.2 hn' hnone rfl
    · exact (hexit w hw).of_follow hw
  | @whole fr l wrap body placed hl hw hb ih =>
    have hn' : pl.Nested T (pl.frame l :: fr) := .cons hl (hT hb.mem_placed) hexit hn
    exact ih hT hn' (by simp [Task.exit?]) ((hpl.loops hl).clear hpl hclear)

structure Layout (pl : Plan) (T : Placed) : Prop where
  nodup : (T.map Prod.fst).Nodup
  root : pl.Settles T [] 0
  placed : ∀ {b : BlockId} {fr : List Frame}, (b, fr) ∈ T → pl.WellPlaced T b fr

theorem loopAt?_header {b : BlockId} {l : ShapedLoop} (h : pl.loopAt? b = some l) : l.header = b := by
  simpa using List.find?_some h

theorem Nested.suffix (hn : pl.Nested T fr) {F : Frame} (hF : F ∈ fr) :
    ∃ l outer, F = pl.frame l ∧ pl.loopAt? l.header = some l ∧ F :: outer <:+ fr ∧
      (l.header, F :: outer) ∈ T := by
  induction hn with
  | nil => cases hF
  | @cons l fr hl hh hw hn ih =>
    rcases List.mem_cons.1 hF with rfl | hF
    · exact ⟨l, fr, rfl, hl, List.suffix_rfl, hh⟩
    · obtain ⟨l', outer, he, hl', hs, hm⟩ := ih hF
      exact ⟨l', outer, he, hl', hs.trans (List.suffix_cons _ _), hm⟩

theorem Settles.placed {w : BlockId} (h : pl.Settles T fr w) :
    ∃ kept, (w, kept) ∈ T ∧ ∀ F ∈ kept, F ∈ fr ∨ F.header = w := by
  obtain ⟨left, kept, rfl, -, hw | ⟨l, hl, hw⟩⟩ := h
  · exact ⟨kept, hw, fun F hF => .inl (List.mem_append_right _ hF)⟩
  · refine ⟨_, hw, fun F hF => ?_⟩
    rcases List.mem_cons.1 hF with rfl | hF
    · exact .inr (loopAt?_header hl)
    · exact .inl (List.mem_append_right _ hF)

theorem Settles.stays {w : BlockId} (h : pl.Settles T fr w) {F : Frame} (hF : F ∈ fr) :
    F.follow = some w ∨ ∃ kept, (w, kept) ∈ T ∧ F ∈ kept := by
  obtain ⟨left, kept, rfl, hl, hw⟩ := h
  rcases List.mem_append.1 hF with hF | hF
  · exact .inl (hl F hF)
  · rcases hw with hw | ⟨l, -, hw⟩
    · exact .inr ⟨_, hw, hF⟩
    · exact .inr ⟨_, hw, .tail _ hF⟩

theorem Fits.exists_layout (hpl : pl.Fits) {body : Body} (h : pl.build = .ok body) :
    ∃ T, pl.Builds [] (.region none (some 0)) body T ∧ pl.Layout T ∧
      ∀ b, pl.flow.isReachable b = true → b ∈ T.map Prod.fst := by
  unfold build at h
  split at h
  · cases h
  · next body' left hle hr =>
    split at h
    · cases h
    · next hnone =>
      cases h
      obtain ⟨T, hb, hperm⟩ := region_derives hr
      have hnodup : (T.map Prod.fst).Nodup :=
        (List.nodup_append.1 (hperm.nodup_iff.2 List.nodup_range)).1
      have hexit : ∀ m, Task.exit? (.region none (some 0)) = some m → pl.Settles T [] m := by
        simp [Task.exit?]
      have hroot := hb.settles (List.Subset.refl T) .nil hexit rfl
      have hwell := hb.wellPlaced hpl (List.Subset.refl T) .nil hexit trivial
      refine ⟨T, hb, ⟨hnodup, hroot, fun hx => hwell _ hx⟩, fun b hreach => ?_⟩
      have hmem := hperm.mem_iff.2 (List.mem_range.2 (hpl.rooted.lt_size hreach))
      refine (List.mem_append.1 hmem).resolve_right fun hleft => ?_
      have := List.find?_eq_none.1 hnone b (Flow.mem_order.2 hreach)
      simp [hleft] at this

namespace Layout

variable (hT : pl.Layout T)
include hT

theorem unique {b : BlockId} {fr fr' : List Frame} (h : (b, fr) ∈ T) (h' : (b, fr') ∈ T) : fr = fr' := by
  have := List.inj_on_of_nodup_map hT.nodup h h' rfl
  exact (Prod.mk.inj this).2

variable (hpl : pl.Fits)
include hpl

theorem dominates {b : BlockId} (hb : (b, fr) ∈ T) (hr : pl.flow.isReachable b = true) {F : Frame}
    (hF : F ∈ fr) : pl.flow.dominance.dominates F.header b = true := by
  refine hpl.rooted.dominates_iff.2 ⟨hr, fun ⟨h0, hp⟩ => ?_⟩
  have along {c : BlockId} (hc : pl.flow.graph.ReachesIn (· ≠ F.header) 0 c) :
      ∃ fr', (c, fr') ∈ T ∧ F ∉ fr' := by
    induction hc with
    | refl =>
      obtain ⟨kept, hk, hkept⟩ := hT.root.placed
      exact ⟨kept, hk, fun hF => (hkept F hF).elim (by simp) fun h => h0 h.symm⟩
    | @tail a c _ hc ih =>
      obtain ⟨fr', ha, hn⟩ := ih
      have hca : c ∈ (pl.proto.jump a).targets := by rw [← hpl.successors]; exact hc.1
      obtain ⟨kept, hk, hkept⟩ := ((hT.placed ha).settles c hca).placed
      exact ⟨kept, hk, fun hF => (hkept F hF).elim hn fun h => hc.2 h.symm⟩
  obtain ⟨fr', hb', hn⟩ := along hp
  rw [hT.unique hb' hb] at hn
  exact hn hF

theorem backEdge {a : BlockId} (ha : (a, fr) ∈ T) (hr : pl.flow.isReachable a = true) {F : Frame}
    (hF : F ∈ fr) (hh : F.header ∈ (pl.proto.jump a).targets) : pl.flow.BackEdge a F.header :=
  ⟨hr, by rw [hpl.successors]; exact hh, hT.dominates hpl ha hr hF⟩

theorem frame_of_mem_body {l : ShapedLoop} (hl : pl.loopAt? l.header = some l)
    (hh : (l.header, pl.frame l :: fr) ∈ T) {x : BlockId} (hx : x ∈ l.body) :
    ∃ fr', (x, fr') ∈ T ∧ pl.frame l ∈ fr' := by
  obtain ⟨latches, hn⟩ := (hpl.loops hl).isLoop
  have hp := hn.forwardIn hpl.rooted hpl.reducible hx
  clear hx
  induction hp with
  | refl => exact ⟨_, hh, .head _⟩
  | @tail a b hp hb ih =>
    obtain ⟨fr', ha, hF⟩ := ih
    have hba : b ∈ (pl.proto.jump a).targets := by rw [← hpl.successors]; exact hb.1.edge
    refine (((hT.placed ha).settles b hba).stays hF).resolve_left fun hw => ?_
    exact (hpl.loops hl).follow hw hb.2

theorem closing_frame {l : ShapedLoop} (hl : pl.loopAt? l.header = some l) {b : BlockId}
    (hb : (b, fr) ∈ T) (hF : pl.frame l ∈ fr) (hc : (pl.frame l).closing = some b) :
    ∃ outer, fr = pl.frame l :: outer := by
  obtain ⟨w, hs⟩ := closing_shape hc
  have hw : (pl.frame l).follow = some w := by simp [frame, hs, LoopShape.follow?]
  have htargets := (hpl.loops hl).closing_targets hs
  have hne : l.header ≠ w := by
    rintro rfl
    exact (hpl.loops hl).follow (by rw [hs]; rfl) ((hpl.loops hl).header_mem hpl)
  obtain ⟨left, kept, he, hleft, hk⟩ := (hT.placed hb).settles w htargets.1
  -- A frame that is kept is not left through its own follow, so the loop is among those left.
  have hout : pl.frame l ∉ kept := by
    intro hin
    rcases hk with hk | ⟨l', -, hk⟩
    · exact (hT.placed hk).follow _ hin hw
    · exact (hT.placed hk).follow _ (.tail _ hin) hw
  cases left with
  | nil =>
    rw [List.nil_append] at he
    exact absurd (he ▸ hF) hout
  | cons F left =>
    -- The back edge leaves no loop, since the innermost one is left to the follow.
    obtain ⟨left', kept', he', hleft', hk'⟩ := (hT.placed hb).settles l.header htargets.2
    have hnil : left' = [] := by
      cases left' with
      | nil => rfl
      | cons F' left' =>
        have hFF : F = F' := by
          rw [he] at he'
          exact (List.cons.inj he').1
        have h1 := hleft F (.head _)
        have h2 := hleft' F' (.head _)
        rw [← hFF, h1] at h2
        exact absurd (Option.some.inj h2).symm hne
    subst hnil
    obtain ⟨l', outer, hfl, hl', hsuf, hm⟩ := (hT.placed hb).nested.suffix hF
    have hll : l' = l := by
      have hh : l.header = l'.header := congrArg Frame.header hfl
      rw [← hh, hl] at hl'
      exact (Option.some.inj hl').symm
    subst hll
    refine ⟨outer, ?_⟩
    rcases hk' with hk' | ⟨l'', -, hk'⟩
    · rw [hT.unique hm hk', he', List.nil_append]
    · have := hsuf.length_le
      rw [hT.unique hm hk', he'] at this
      simp only [List.length_cons, List.nil_append] at this
      omega

theorem closing_head {l : ShapedLoop} (hl : pl.loopAt? l.header = some l) {b : BlockId}
    (hb : (b, fr) ∈ T) (hF : pl.frame l ∈ fr) (hc : (pl.frame l).closing = some b) :
    closing? fr = some b := by
  obtain ⟨outer, rfl⟩ := hT.closing_frame hpl hl hb hF hc
  exact hc

end Layout

end Plan

end LuaLift
