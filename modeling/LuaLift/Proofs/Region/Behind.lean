import LuaLift.Proofs.Meaning
import LuaLift.Proofs.Region.Placement

/-!
What stands behind a region while its tree runs. A region may end without a word only where nothing is
left to do around it: merge points that are still to come block every block on the way, and the header
of a loop, a latch and a return are ends that no merge point blocks.
-/

namespace LuaLift

namespace Plan

/-- The stack of a region in some frames, the merge points still to come in the innermost loop, and
the blocks placed behind. -/
inductive Behind (pl : Plan) (T : Placed) : List Frame → Option BlockId → List Context →
    List BlockId → Placed → Prop
  | top : Behind pl T [] none [] [] []
  | merge {fr : List Frame} {stop : Option BlockId} {k : List Context} {ms : List BlockId} {m : BlockId}
      {after : Body} {placed later : Placed} (hm : pl.Settles T fr m)
      (hr : pl.Builds fr (.region stop (some m)) after placed) (hk : Behind pl T fr stop k ms later) :
      Behind pl T fr (some m) (.rest after :: k) (m :: ms) (placed ++ later)
  | unmerged {fr : List Frame} {stop : Option BlockId} {k : List Context} {ms : List BlockId}
      {later : Placed} (hk : Behind pl T fr stop k ms later) : Behind pl T fr none (.rest [] :: k) ms later
  | loop {fr : List Frame} {stop : Option BlockId} {k : List Context} {l : ShapedLoop} {node : Node}
      {after : Body} {inner outer later : Placed} (hs : stop ≠ some l.header)
      (ha : Frame.arrive l.header fr = .inside) (hn : pl.Builds fr (.loop l) [node] inner)
      (hr : pl.Builds fr (.region stop l.shape.follow?) after outer) (hk : Behind pl T fr stop k [] later)
      (hT : (inner ++ (outer ++ later)).Sublist T) :
      Behind pl T (pl.frame l :: fr) none (.loop node after :: k) [] (outer ++ later)

variable {pl : Plan} {T : Placed} {fr : List Frame} {stop : Option BlockId} {k : List Context}
  {ms : List BlockId} {later : Placed}

namespace Behind

theorem settles_stop (h : pl.Behind T fr stop k ms later) : ∀ m, stop = some m → pl.Settles T fr m := by
  intro m hm
  cases h with
  | merge hs => cases hm; exact hs
  | top => cases hm
  | unmerged => cases hm
  | loop => cases hm

theorem settles (h : pl.Behind T fr stop k ms later) {m : BlockId} (hm : m ∈ ms) : pl.Settles T fr m := by
  induction h with
  | top => cases hm
  | merge hs _ _ ih =>
    rcases List.mem_cons.1 hm with rfl | hm
    · exact hs
    · exact ih hm
  | unmerged _ ih => exact ih hm
  | loop => cases hm

theorem mem_later (h : pl.Behind T fr stop k ms later) {m : BlockId} (hm : m ∈ ms)
    (ha : Frame.arrive m fr = .inside) : m ∈ later.map Prod.fst := by
  induction h with
  | top => cases hm
  | @merge fr stop k ms m' after placed later hs hr hk ih =>
    rw [List.map_append, List.mem_append]
    rcases List.mem_cons.1 hm with rfl | hm
    · cases hr with
      | stopped =>
        refine .inr (ih ?_ ha)
        cases hk
        exact .head _
      | header _ hh => rw [ha] at hh; cases hh
      | follow _ hh => rw [ha] at hh; cases hh
      | loop _ _ hn _ => exact .inl (List.mem_map_of_mem (List.mem_append_left _ hn.mem_header))
      | block _ _ _ hb => exact .inl (List.mem_map_of_mem hb.mem_placed)
    · exact .inr (ih hm ha)
  | unmerged _ ih => exact ih hm ha
  | loop => cases hm

end Behind

theorem Layout.enters (hT : pl.Layout T) (hpl : pl.Fits) {l : ShapedLoop}
    (hl : pl.loopAt? l.header = some l) (hh : (l.header, pl.frame l :: fr) ∈ T)
    (ha : Frame.arrive l.header fr = .inside) {m : BlockId} (hm : pl.Settles T fr m)
    (hb : pl.flow.Blocks m l.header) : m = l.header := by
  refine Classical.byContradiction fun hne => ?_
  obtain ⟨latches, hn⟩ := (hpl.loops hl).isLoop
  obtain ⟨fr', hm', hF⟩ := hT.frame_of_mem_body hpl hl hh (hb.mem_body hpl.rooted hpl.reducible hn)
  obtain ⟨kept, hk, hkept⟩ := hm.placed
  rw [hT.unique hm' hk] at hF
  rcases hkept _ hF with hF | hF
  · exact (Frame.arrive_inside ha hF).1 rfl
  · exact hne hF.symm

/-- What holds where an edge arrives: all is blocked that is still to come, and a header is reached
only when nothing is. -/
structure Ready (pl : Plan) (fr : List Frame) (ms : List BlockId) (b : BlockId) : Prop where
  reachable : pl.flow.isReachable b = true
  blocks : ∀ m ∈ ms, pl.flow.Blocks m b
  header : ∀ F ∈ fr, F.header = b → ms = [] ∧ F.closing = none

theorem Layout.ready (hT : pl.Layout T) (hpl : pl.Fits) {a b : BlockId} (ha : (a, fr) ∈ T)
    (hr : pl.flow.isReachable a = true) (hc : closing? fr ≠ some a) (hb : b ∈ (pl.proto.jump a).targets)
    (hm : ∀ m ∈ ms, pl.flow.Blocks m a ∧ m ≠ a) : pl.Ready fr ms b := by
  have hab : b ∈ pl.flow.successors a := by rw [hpl.successors]; exact hb
  refine ⟨hpl.rooted.isReachable_successor hr hab, fun m hms => ?_, fun F hF hh => ?_⟩
  · exact (hm m hms).1.successor hpl.rooted (Ne.symm (hm m hms).2) hr hab
  · have hback := hT.backEdge hpl ha hr hF (hh ▸ hb)
    refine ⟨List.eq_nil_iff_forall_not_mem.2 fun m hms => ?_, ?_⟩
    · have := (hm m hms).1.forward_of_edge (Ne.symm (hm m hms).2) hr hback.edge
      exact this.not_back hback
    · cases hF' : F.closing with
      | none => rfl
      | some c =>
        obtain ⟨l, outer, rfl, hl, -⟩ := (hT.placed ha).nested.suffix hF
        obtain ⟨w, hs⟩ := closing_shape hF'
        have : a = c := ((hpl.loops hl).closing hs).1 a hback
        exact absurd (hT.closing_head hpl hl ha hF (this ▸ hF')) hc

theorem Layout.nil_of_closing (hT : pl.Layout T) (hpl : pl.Fits) {b : BlockId} (hb : (b, fr) ∈ T)
    (hr : pl.flow.isReachable b = true) (hc : closing? fr = some b)
    (hm : ∀ m ∈ ms, pl.flow.Blocks m b ∧ m ≠ b) : ms = [] := by
  refine List.eq_nil_iff_forall_not_mem.2 fun m hms => ?_
  cases (hT.placed hb).nested with
  | nil => cases hc
  | @cons l fr hl hh hw hn =>
    obtain ⟨w, hs⟩ := closing_shape hc
    have hback := hT.backEdge hpl hb hr (.head _) ((hpl.loops hl).closing_targets hs).2
    exact ((hm m hms).1.forward_of_edge (Ne.symm (hm m hms).2) hr hback.edge).not_back hback

end Plan

end LuaLift
