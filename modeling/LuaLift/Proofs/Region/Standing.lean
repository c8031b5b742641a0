import LuaLift.Proofs.Loops.Plain
import LuaLift.Proofs.Region.Charted

namespace LuaLift

namespace NaturalLoop

variable {p : Proto} {f : Flow} {n : NaturalLoop} {b t e u w : BlockId} {c : Expr}

theorem exitTest?_of_tests (h : p.Tests b c t e) (ht : t ∈ n.body) (he : e ∉ n.body) :
    ∃ s d, n.exitTest? (p.jump b) = some ⟨t, e, s⟩ ∧ (p.jump b).condition? = some d ∧
      (if s then d else d.negate) = c := by
  rcases h with h | ⟨d, h, rfl⟩
  · exact ⟨true, c, by simp [exitTest?, h, contains, ht, he], by simp [h, Jump.condition?], rfl⟩
  · exact ⟨false, d, by simp [exitTest?, h, contains, ht, he], by simp [h, Jump.condition?], rfl⟩

theorem plainShape_of_pretest (hb : p.body n.header = []) (hj : p.Tests n.header c t e)
    (ht : t ∈ n.body) (he : e ∉ n.body) : n.plainShape p f = .pretest c t e := by
  obtain ⟨s, d, hexit, hcond, hc⟩ := exitTest?_of_tests hj ht he
  simp only [plainShape, pretest?, hb, List.isEmpty_nil, guard, if_true, hexit, hcond]
  simp [hc]

theorem plainShape_of_posttest (hb : p.body n.header ≠ []) (hl : n.latches = [u])
    (hj : p.Tests u c w n.header) (hh : n.header ∈ n.body) (hw : w ∉ n.body) :
    n.plainShape p f = .posttest u w := by
  obtain ⟨d, hj⟩ := hj.swap
  obtain ⟨s, d, hexit, -, -⟩ := exitTest?_of_tests hj hh hw
  have hpre : n.pretest? p = none := by simp [pretest?, hb, guard, failure]
  simp [plainShape, hpre, posttest?, singleLatch?, hl, hexit]

end NaturalLoop

namespace Plan

variable {pl : Plan}

theorem untilTest?_of_tests {b u w : BlockId} {c : Expr} (h : pl.proto.Tests u c w b) (hw : w ≠ b) :
    pl.untilTest? b u = some c := by
  rcases h with h | ⟨d, h, rfl⟩
  · simp [untilTest?, h, hw]
  · simp [untilTest?, h]

inductive Surrounds (pl : Plan) : Option Around → List Frame → Prop
  | top : Surrounds pl none []
  | loop {A : Around} {l : ShapedLoop} {fr : List Frame} (hl : pl.loopAt? l.header = some l)
      (hh : l.header = A.header) (hw : l.shape.follow? = some A.follow)
      (hc : (pl.frame l).closing = A.closing) : Surrounds pl (some A) (pl.frame l :: fr)

structure Sits (pl : Plan) (bs : List BlockId) (ls : List Extent) (a : Option Around) (fr : List Frame)
    (b : BlockId) (cs : List BlockId) (ks : List Extent) : Prop where
  blocks : cs.Sublist bs
  loops : ∀ l ∈ ks, l ∈ ls
  own : ∀ l ∈ ls, l.header ∈ cs → l ∈ ks ∨ l.header = b
  surrounds : pl.Surrounds a fr
  holds : ∀ A ∈ a, ∀ x ∈ cs, A.Holds ls x
  apart : ∀ F ∈ fr, ∀ x ∈ cs, F.follow ≠ some x ∧ (F.header = x → x = b)
  clear : Around.Clear a b cs

structure Stands (pl : Plan) (bs : List BlockId) (ls : List Extent) (a : Option Around) (fr : List Frame)
    (b : BlockId) (cs : List BlockId) (ks : List Extent) : Prop extends Sits pl bs ls a fr b cs ks where
  own' : ∀ l ∈ ls, l.header ∈ cs → l ∈ ks
  apart' : ∀ F ∈ fr, ∀ x ∈ cs, F.header ≠ x

structure Lies (ls : List Extent) (fr : List Frame) (x : BlockId) : Prop where
  header : ∀ l ∈ ls, l.header ≠ x
  apart : ∀ F ∈ fr, F.header ≠ x ∧ F.follow ≠ some x
  closing : closing? fr ≠ some x

end Plan

theorem arms_sublist {b m : BlockId} {ts es bs : List BlockId}
    (h : (b :: (ts ++ (es ++ [m]))).Sublist bs) : (ts ++ [m]).Sublist bs ∧ (es ++ [m]).Sublist bs :=
  ⟨(((List.Sublist.refl ts).append (List.sublist_append_right es _)).cons b).trans h,
    ((List.sublist_append_right ts _).cons b).trans h⟩

theorem Frame.arrive_eq_inside {fr : List Frame} {b : BlockId}
    (h : ∀ F ∈ fr, F.header ≠ b ∧ F.follow ≠ some b) : Frame.arrive b fr = .inside := by
  cases fr with
  | nil => rfl
  | cons F outer =>
    obtain ⟨hh, hw⟩ := h F (.head _)
    have hn : outer.reverse.find? (·.isEdge b) = none := by
      refine List.find?_eq_none.2 fun E hE => ?_
      obtain ⟨hh, hw⟩ := h E (.tail _ (List.mem_reverse.1 hE))
      simp [Frame.isEdge, Ne.symm hh, hw]
    simp [Frame.arrive, Ne.symm hh, hw, hn]

namespace Plan

section Standing

variable {p : Proto} {t : Locals} {bs cs : List BlockId} {ls ks : List Extent} {fr : List Frame}
  {b m : BlockId} {a : Option Around}

theorem Sits.inner {pl : Plan} (h : pl.Sits bs ls a fr b cs ks) {b' : BlockId} {cs' : List BlockId}
    {ks' : List Extent} (hs : cs'.Sublist cs) (hb : b ∉ cs') (hk : ∀ l ∈ ks', l ∈ ks)
    (ho : ∀ l ∈ ks, l.header ∈ cs' → l ∈ ks') : pl.Stands bs ls a fr b' cs' ks' := by
  have hin {x : BlockId} (hx : x ∈ cs') : x ∈ cs ∧ x ≠ b := ⟨hs.subset hx, fun h => hb (h ▸ hx)⟩
  have own : ∀ l ∈ ls, l.header ∈ cs' → l ∈ ks' := fun l hl hh =>
    ho l ((h.own l hl (hin hh).1).resolve_right (hin hh).2) hh
  have apart : ∀ F ∈ fr, ∀ x ∈ cs', F.header ≠ x := fun F hF x hx he =>
    (hin hx).2 ((h.apart F hF x (hin hx).1).2 he)
  exact {
    blocks := hs.trans h.blocks
    loops := fun l hl => h.loops l (hk l hl)
    own := fun l hl hh => .inl (own l hl hh)
    surrounds := h.surrounds
    holds := fun A hA x hx => h.holds A hA x (hin hx).1
    apart := fun F hF x hx => ⟨(h.apart F hF x (hin hx).1).1, fun he => absurd he (apart F hF x hx)⟩
    clear := h.clear.inner fun x hx => hin hx
    own' := own
    apart' := apart }

theorem follow_notMem {rest : Body} {e : BlockId} {ts es : List BlockId} {ks' : List Extent}
    (hd : (b :: (ts ++ es)).Nodup) (hcl : Around.Clear a b (b :: (ts ++ es))) (h : p.Ends a rest e es ks') :
    e ∉ b :: ts := by
  rcases h.resumes with he | he
  · grind
  · have := hcl.notMem he
    grind

theorem Stands.arrive {pl : Plan} {ts : List BlockId} (hs : pl.Stands bs ls a fr b (b :: ts) ks) :
    Frame.arrive b fr = .inside :=
  Frame.arrive_eq_inside fun F hF => ⟨hs.apart' F hF b (.head _), (hs.apart F hF b (.head _)).1⟩

theorem Sits.behind {pl : Plan} {e : BlockId} {ts es : List BlockId} {ks ks' : List Extent}
    (hs : pl.Sits bs ls a fr b (b :: (ts ++ es)) (⟨b, ts⟩ :: (ks ++ ks')))
    (hd : (b :: (ts ++ es)).Nodup) (hk : ∀ l ∈ ks, l.header ∈ b :: ts) : pl.Stands bs ls a fr e es ks' := by
  refine hs.inner ((List.sublist_append_right ts es).cons b) (by grind) (fun l hl => by simp [hl])
    fun l hl hle => ?_
  rcases List.mem_cons.1 hl with rfl | hl
  · grind
  · refine (List.mem_append.1 hl).resolve_left fun hl => ?_
    have := hk l hl
    grind

variable (hp : p.WellShaped) (hc : p.Charted bs ls)
include hp hc

theorem loopAt?_eq_none (h : ∀ l ∈ ls, l.header ≠ b) : (plain p t).loopAt? b = none := by
  refine loopAt?_plain_eq_none fun u hu => ?_
  obtain ⟨l, hl, hb, -⟩ := hc.exists_of_backEdge hp hu
  exact h l hl hb.symm

omit hp hc in
theorem mergePoint?_eq_some (h : ((Flow.of p).mergePoints (Flow.of p).dominance)[b]?.join = some m)
    (ho : ∀ F ∈ fr.head?, m ∈ F.owned) : (plain p t).mergePoint? fr b = some m := by
  have hm : (plain p t).merges[b]?.join = some m := h
  rw [mergePoint?, hm]
  cases fr with
  | nil => rfl
  | cons F outer => simpa using ho F rfl

omit hc in
theorem Surrounds.natural {A : Around} (hr : (Flow.of p).Reducible)
    (h : (plain p t).Surrounds (some A) fr) : ∃ l outer n, fr = (plain p t).frame l :: outer ∧
      (Flow.of p).IsLoop n ∧ n.header = A.header ∧ n.body = l.body ∧
      l.shape.follow? = some A.follow ∧ A.follow ∉ n.body := by
  cases h with
  | @loop A l outer hl hh hw hcl =>
    have hfits := (plain_fits (t := t) hp hr).loops hl
    obtain ⟨latches, hn⟩ := hfits.isLoop
    exact ⟨l, outer, _, rfl, hn, hh, rfl, hw, hfits.follow hw⟩

omit hp hc in
theorem mem_owned {l : ShapedLoop} {w x : BlockId} (hw : l.shape.follow? = some w)
    (hws : w < (Flow.of p).graph.size) : x ∈ ((plain p t).frame l).owned → x ∈ l.body ∨
      x ≠ w ∧ ¬ (Flow.of p).graph.Reaches w x := by
  have hreach : x ∈ (plain p t).reachFrom w ↔ (Flow.of p).graph.Reaches w x :=
    Digraph.mem_walkFrom p.inRange_digraph hws
  simp only [frame, hw, List.mem_append, List.mem_filter, List.contains_eq_mem, hreach]
  grind

theorem mergePoint?_fork {c : Expr} {t' e : BlockId} {x y : Body} {ts es : List BlockId}
    {ks ks' : List Extent} (hs : (plain p t).Sits bs ls a fr b (b :: (ts ++ es)) (ks ++ ks'))
    (hj : p.jump b = .branch c t' e) (hx : p.Ends a x t' ts ks) (hy : p.Ends a y e es ks') :
    (plain p t).mergePoint? fr b = none := by
  have hr := hc.reducible hp
  have hf : (Flow.of p).Rooted := hp.rooted
  have hjt := Proto.targets_of_branch hj
  cases hraw : ((Flow.of p).mergePoints (Flow.of p).dominance)[b]?.join with
  | none => rw [mergePoint?, show (plain p t).merges[b]?.join = none from hraw]; rfl
  | some m =>
    obtain ⟨hb, hmb, hblocks, -⟩ := (hf.mergePoint_eq_some_iff hr).1 hraw
    obtain ⟨hbt, ht⟩ := Proto.blocks_target hp hblocks (Ne.symm hmb) hb (t := t') (by simp [hjt])
    obtain ⟨hbe, he⟩ := Proto.blocks_target hp hblocks (Ne.symm hmb) hb (t := e) (by simp [hjt])
    have hin := fun x hx => hs.blocks.subset (a := x) hx
    -- A merge point is missing from one arm, so from there it can only come behind the loop around.
    obtain ⟨A, hA, v, ⟨l', hl', hh, hv⟩, hvw, hw⟩ : ∃ A ∈ a, ∃ v, A.Holds ls v ∧
        (Flow.of p).Forward v A.follow ∧ (Flow.of p).Blocks m A.follow := by
      by_cases hmt : m ∈ ts
      · have hme : m ∉ es := by
          have := hs.blocks.nodup hc.nodup
          grind
        exact hc.blocks_follow hp hy (fun v hv => hin v (by simp [hv]))
          (fun l hl => hs.loops l (by simp [hl])) (fun A hA v hv => hs.holds A hA v (by simp [hv])) hbe
          (fun _ A hA => hs.holds A hA b (.head _)) hme he
      · exact hc.blocks_follow hp hx (fun v hv => hin v (by simp [hv]))
          (fun l hl => hs.loops l (by simp [hl])) (fun A hA v hv => hs.holds A hA v (by simp [hv])) hbt
          (fun _ A hA => hs.holds A hA b (.head _)) hmt ht
    obtain rfl : a = some A := hA
    obtain ⟨l, outer, n, rfl, hn, hnh, hbody, hlw, hfollow⟩ := hs.surrounds.natural hp hr
    have hwr := hf.isReachable_successor hvw.reachable hvw.edge
    have hpath := hf.forwardTo_of_blocks hr hw hwr
    have hnot : m ∉ ((plain p t).frame l).owned := by
      intro hmo
      rcases mem_owned hlw (hf.lt_size hwr) hmo with h | ⟨-, h⟩
      · exact hc.notMem_body hp hn hl' (hh.trans hnh.symm) hv hvw hfollow hpath (hbody ▸ h)
      · exact h (Flow.reaches_of_forward hpath)
    rw [mergePoint?, show (plain p t).merges[b]?.join = some m from hraw]
    simpa using hnot

theorem Sits.not_closing (hs : (plain p t).Sits bs ls a fr b cs ks) {x : BlockId}
    (ht : ∀ v ∈ (p.jump x).targets, v ∈ cs ∧ v ≠ b ∨ Around.Resumes a v) : closing? fr ≠ some x := by
  have hr := hc.reducible hp
  intro hcl
  have hsur := hs.surrounds
  cases hsur with
  | top => cases hcl
  | @loop A l outer hl hh hw hclose =>
    have hclose : A.closing = some x := hclose ▸ hcl
    have hfits := (plain_fits (t := t) hp hr).loops hl
    obtain ⟨w, hshape⟩ := closing_shape hcl
    have hheader : A.header ∈ (p.jump x).targets := hh ▸ (hfits.closing_targets hshape).2
    rcases ht _ hheader with ⟨hm, hne⟩ | hres
    · exact hne ((hs.clear A rfl).2 hm).1
    · rcases Around.resumes_some.1 hres with hf | ⟨-, hn⟩
      · exact hfits.follow hw (hf ▸ hh ▸ hfits.header_mem (plain_fits hp hr))
      · simp [hclose] at hn

theorem owned_of_rejoin {x y rest : Body} {t' e m : BlockId} {ts es cs : List BlockId}
    (hs : (plain p t).Sits bs ls a fr b (b :: (ts ++ (es ++ cs))) ks) (hx : p.Passes x t' m ts)
    (hy : p.Passes y e m es) (h : p.Ends a rest m cs ks)
    (hback : ∀ A ∈ a, ∃ u ∈ cs, A.header ∈ (p.jump u).targets) (hm : m ∈ cs) (v : BlockId)
    (hv : v ∈ ts ∨ v ∈ es ∨ v = m) : ∀ F ∈ fr.head?, v ∈ F.owned := by
  intro F hF
  have hr := hc.reducible hp
  cases ha : a with
  | none =>
    have := hs.surrounds
    rw [ha] at this
    cases this
    cases hF
  | some A =>
    rw [ha] at hs hback
    obtain ⟨l, outer, n, rfl, hn, hnh, hbody, -, -⟩ := hs.surrounds.natural hp hr
    obtain rfl : (plain p t).frame l = F := by simpa using hF
    have hd := hs.blocks.nodup hc.nodup
    have reach : ∀ x ∈ b :: (ts ++ (es ++ cs)), (Flow.of p).isReachable x = true := fun x hx =>
      (hc.isReachable_iff hp).2 (hs.blocks.subset hx)
    have hh : ∀ x ∈ ts ++ (es ++ cs), x ≠ n.header := by
      rintro x hx rfl
      have := ((hs.clear A rfl).2 (hnh ▸ .tail _ hx)).1
      grind
    -- Some block behind the place goes back to the header, so all code in front of that block is in the loop.
    obtain ⟨u, hu, hheader⟩ := hback A rfl
    have hun : u ∈ n.body := by
      refine hn.latch_mem hp.rooted ?_
      rw [hnh]
      exact hc.backEdge_of_holds hp (hs.holds A rfl u (by simp [hu])) hheader
    have hmn : m ∈ n.body := h.led.mem_body hp hn (by grind) (fun x hx => reach x (by simp [hx]))
      (fun hx => hh _ (by simp [hx]) rfl) hu hun
    have hmh : m ≠ n.header := hh m (by simp [hm])
    have hvn : v ∈ n.body := by
      rcases hv with hv | hv | rfl
      · exact (hx.mem_body hp hn (fun x hx => reach x (by simp [hx])) (fun hx => hh _ (by simp [hx]) rfl)
          hmn hmh).2.2 v hv
      · exact (hy.mem_body hp hn (fun x hx => reach x (by simp [hx])) (fun hx => hh _ (by simp [hx]) rfl)
          hmn hmh).2.2 v hv
      · exact hmn
    rw [hbody] at hvn
    exact List.mem_append_left _ hvn

theorem lies_of_rejoin {x y rest : Body} {t' e m : BlockId} {ts es cs : List BlockId}
    (hs : (plain p t).Sits bs ls a fr b (b :: (ts ++ (es ++ cs))) ks) (hx : p.Passes x t' m ts)
    (hy : p.Passes y e m es) (h : p.Ends a rest m cs ks) (hm : m ∈ cs) (v : BlockId)
    (hv : v ∈ ts ++ es) : Lies ls fr v := by
  have hd := hs.blocks.nodup hc.nodup
  have hvb : v ≠ b := by grind
  have hvs : v ∈ b :: (ts ++ (es ++ cs)) := by grind
  refine ⟨fun l hl hlv => ?_, fun F hF => ?_, hs.not_closing hp hc fun u hu => ?_⟩
  · have := h.header_mem ((hs.own l hl (hlv ▸ hvs)).resolve_right fun h => hvb (hlv ▸ h))
    grind
  · obtain ⟨hf, hh⟩ := hs.apart F hF v hvs
    exact ⟨fun h => hvb (hh h), hf⟩
  · have hxs := hx.stays (u := v) (t := u)
    have hys := hy.stays (u := v) (t := u)
    clear hs
    grind

theorem loopAt?_while {c : Expr} {t' e : BlockId} {x : Body} {ts : List BlockId}
    (hl : (⟨b, ts⟩ : Extent) ∈ ls) (hb : p.body b = []) (hj : p.Tests b c t' e)
    (hx : p.Ends (some ⟨b, e, none⟩) x t' ts ks) (hback : ∃ u ∈ b :: ts, b ∈ (p.jump u).targets)
    (he : e ∉ b :: ts) : ∃ ns, (plain p t).loopAt? b = some ⟨b, ns, .pretest c t' e⟩ := by
  obtain ⟨u, hu, hub⟩ := hback
  have hd : (b :: ts).Nodup := (hc.blocks hl).nodup hc.nodup
  have hback : (Flow.of p).BackEdge u b := hc.backEdge hp hl hu hub
  have hn := Flow.isLoop_of_backEdge hback
  have hf : (Flow.of p).Rooted := hp.rooted
  have hsub := fun v hv => hc.mem_blocks_of_mem_body hp hn hl rfl (x := v) hv
  have hen := fun h => he (hsub e h)
  -- The body leads back to the header, or the branch itself does where the body is empty.
  have htn : t' ∈ ((Flow.of p).loopAt ((Flow.of p).backEdges (Flow.of p).dominance) b).body := by
    have hjt := hj.mem_targets (x := b)
    rcases hx.start with ⟨cs, rfl⟩ | ⟨rfl, -, hres⟩
    · have hut : u ∈ t' :: cs := by
        refine (List.mem_cons.1 hu).resolve_left ?_
        rintro rfl
        grind
      exact hx.led.mem_body hp hn hd.of_cons
        (fun v hv => (hc.isReachable_iff hp).2 ((hc.blocks hl).subset (.tail _ hv)))
        (List.nodup_cons.1 hd).1 hut (hn.latch_mem hf hback)
    · obtain rfl := List.mem_singleton.1 hu
      obtain rfl : u = t' := (hjt.1 hub).resolve_right fun h => he (h ▸ .head _)
      exact hn.header_mem hf
  have := loopAt?_plain (t := t) hp hn
  rw [NaturalLoop.plainShape_of_pretest hb hj htn hen] at this
  exact ⟨_, this⟩

theorem loopAt?_repeat {c : Expr} {u w : BlockId} {x : Body} {ts : List BlockId}
    (hl : (⟨b, ts⟩ : Extent) ∈ ls) (hb : p.body b ≠ []) (hj : p.Tests u c w b)
    (hx : p.Ends (some ⟨b, w, some u⟩) x b (b :: ts) ks) (hu : u ∈ b :: ts)
    (hks : ∀ l ∈ ks, l.header ≠ b) (hw : w ∉ b :: ts) :
    ∃ ns, (plain p t).loopAt? b = some ⟨b, ns, .posttest u w⟩ := by
  have hd : (b :: ts).Nodup := (hc.blocks hl).nodup hc.nodup
  have hback : (Flow.of p).BackEdge u b := hc.backEdge hp hl hu (by simp [hj.mem_targets])
  have hn := Flow.isLoop_of_backEdge hback
  have hf : (Flow.of p).Rooted := hp.rooted
  have hwn := fun h => hw (hc.mem_blocks_of_mem_body hp hn hl rfl (x := w) h)
  -- The latch is the only block with an edge back: what jumps to the header from the body closes the loop.
  have honly : ∀ v, (Flow.of p).BackEdge v b → v = u := by
    intro v hv
    obtain ⟨l, hl', hlb, hvl⟩ := hc.exists_of_backEdge hp hv
    obtain rfl := hc.eq_of_header hl' hl hlb.symm
    have hvb : b ∈ (p.jump v).targets := by rw [← hp.successors]; exact hv.edge
    have := @Precedes.mem ts v b
    have := hx.edge hvl hvb
    grind
  have hfilter : ((Flow.of p).successors u).filter (· = b) = [b] := by
    have hwb : w ≠ b := fun h => hw (h ▸ .head _)
    rw [hp.successors]
    rcases hj with hj | ⟨d, hj, -⟩ <;> simp [hj, Jump.targets, hwb]
  have := loopAt?_plain (t := t) hp hn
  rw [NaturalLoop.plainShape_of_posttest hb (Flow.latches_eq_singleton hback honly hfilter) hj
    (hn.header_mem hf) hwn] at this
  exact ⟨_, this⟩

omit hp in
theorem Stands.enter {l : ShapedLoop} {A : Around} {rest : Body} {b' e : BlockId} {ts es : List BlockId}
    {ks ks' : List Extent} (hs : (plain p t).Stands bs ls a fr b (b :: (ts ++ es)) (⟨b, ts⟩ :: (ks ++ ks')))
    (hl : (plain p t).loopAt? l.header = some l) (hlb : l.header = b) (hAb : A.header = b)
    (hw : l.shape.follow? = some A.follow) (hclose : ((plain p t).frame l).closing = A.closing)
    (hA : A.follow ∉ b :: ts) (hcs : cs.Sublist (b :: ts)) (hfirst : b ∈ cs → b' = b ∧ A.closing ≠ none)
    (hr : p.Ends a rest e es ks') :
    (plain p t).Sits bs ls (some A) ((plain p t).frame l :: fr) b' cs ks ∧
      (b ∉ cs → (plain p t).Stands bs ls (some A) ((plain p t).frame l :: fr) b' cs ks) := by
  have hd := hs.blocks.nodup hc.nodup
  have hmem : ∀ v ∈ cs, v ∈ b :: (ts ++ es) ∧ v ∉ es := fun v hv => by
    have := hcs.subset hv
    grind
  have hown : ∀ k ∈ ls, k.header ∈ cs → k ∈ ks ∨ k.header = b := by
    intro k hk hkc
    rcases List.mem_cons.1 (hs.own' k hk (hmem _ hkc).1) with rfl | hk
    · exact .inr rfl
    · refine .inl ((List.mem_append.1 hk).resolve_right fun h => ?_)
      exact (hmem _ hkc).2 (hr.header_mem h)
  have hapart : ∀ F ∈ fr, ∀ v ∈ cs, F.header ≠ v ∧ F.follow ≠ some v := fun F hF v hv =>
    ⟨hs.apart' F hF v (hmem v hv).1, (hs.apart F hF v (hmem v hv).1).1⟩
  have hsits : (plain p t).Sits bs ls (some A) ((plain p t).frame l :: fr) b' cs ks := by
    refine ⟨hcs.trans (((List.sublist_append_left ts es).cons_cons b).trans hs.blocks),
      fun k hk => hs.loops k (by simp [hk]), fun k hk hkc => ?_, .loop hl (hlb.trans hAb.symm) hw hclose,
      fun B hB v hv => ?_, fun F hF v hv => ?_, fun B hB => ?_⟩
    · exact (hown k hk hkc).imp_right fun h => h.trans (hfirst (h ▸ hkc)).1.symm
    · cases hB
      exact ⟨_, hs.loops _ (.head _), hAb.symm, hcs.subset hv⟩
    · rcases List.mem_cons.1 hF with rfl | hF
      · refine ⟨fun h => hA ?_, fun h => ?_⟩
        · obtain rfl : A.follow = v := Option.some.inj (hw.symm.trans h)
          exact hcs.subset hv
        · obtain rfl : b = v := hlb.symm.trans h
          exact (hfirst hv).1.symm
      · exact ⟨(hapart F hF v hv).2, fun h => absurd h (hapart F hF v hv).1⟩
    · cases hB
      refine ⟨fun h => hA (hcs.subset h), fun h => ?_⟩
      obtain ⟨rfl, hn⟩ := hfirst (hAb ▸ h)
      exact ⟨hAb, hn⟩
  refine ⟨hsits, fun hb => ⟨hsits, fun k hk hkc => ?_, fun F hF v hv => ?_⟩⟩
  · exact (hown k hk hkc).resolve_right fun h => hb (h ▸ hkc)
  · rcases List.mem_cons.1 hF with rfl | hF
    · exact fun h => hb (hlb.symm.trans h ▸ hv)
    · exact (hapart F hF v hv).1

end Standing

end Plan

end LuaLift
