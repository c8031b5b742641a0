import LuaLift.Lift
import LuaLift.Proofs.Region.Complete
import LuaLift.Proofs.Region.Standing

namespace LuaLift

namespace Plan

def Lays (pl : Plan) (fr : List Frame) (task : Task) (body : Body) (cs : List BlockId) : Prop :=
  ∃ placed, placed.map Prod.fst = cs ∧ pl.Builds fr task body placed

namespace Lays

variable {pl : Plan} {fr : List Frame} {stop next : Option BlockId} {b t e : BlockId} {c : Expr}
  {body rest onTrue onFalse : Body} {cs ts es : List BlockId}

theorem block (hs : stop ≠ some b) (ha : ∀ F ∈ fr, F.header ≠ b ∧ F.follow ≠ some b)
    (hl : pl.loopAt? b = none) (h : pl.Lays fr (.place stop b) body cs) :
    pl.Lays fr (.region stop (some b)) body cs := by
  obtain ⟨placed, rfl, h⟩ := h
  exact ⟨placed, rfl, .block hs (Frame.arrive_eq_inside ha) hl h⟩

theorem always (hc : closing? fr ≠ some b) (hj : pl.proto.jump b = .always t)
    (hr : pl.Lays fr (.region stop (some t)) rest cs) :
    pl.Lays fr (.place stop b) ((pl.proto.body b).map .stmt ++ rest) (b :: cs) := by
  obtain ⟨placed, rfl, hr⟩ := hr
  exact ⟨(b, fr) :: placed, rfl, .always hc hj hr⟩

theorem branch (hc : closing? fr ≠ some b) (hj : pl.proto.jump b = .branch c t e)
    (hm : pl.mergePoint? fr b = next) (ht : pl.Lays fr (.region next (some t)) onTrue ts)
    (he : pl.Lays fr (.region next (some e)) onFalse es) (hr : pl.Lays fr (.region stop next) rest cs) :
    pl.Lays fr (.place stop b) ((pl.proto.body b).map .stmt ++ conditional c onTrue onFalse :: rest)
      (b :: (ts ++ (es ++ cs))) := by
  subst hm
  obtain ⟨first, rfl, ht⟩ := ht
  obtain ⟨second, rfl, he⟩ := he
  obtain ⟨placed, rfl, hr⟩ := hr
  exact ⟨(b, fr) :: (first ++ (second ++ placed)), by simp, .branch hc hj ht he hr⟩

theorem loop {l : ShapedLoop} {node : Node} (hs : stop ≠ some l.header)
    (ha : Frame.arrive l.header fr = .inside) (hn : pl.Lays fr (.loop l) [node] ts)
    (hr : pl.Lays fr (.region stop l.shape.follow?) rest cs) :
    pl.Lays fr (.region stop (some l.header)) (node :: rest) (ts ++ cs) := by
  obtain ⟨placed, rfl, hn⟩ := hn
  obtain ⟨later, rfl, hr⟩ := hr
  exact ⟨placed ++ later, by simp, .loop hs ha hn hr⟩

theorem headed {l : ShapedLoop} {wrap : Body → Node} (hl : pl.loopAt? l.header = some l)
    (hh : l.shape.headed? = some (wrap, t))
    (h : pl.Lays (pl.frame l :: fr) (.region none (some t)) body cs) :
    pl.Lays fr (.loop l) [wrap body] (l.header :: cs) := by
  obtain ⟨placed, rfl, h⟩ := h
  exact ⟨(l.header, _) :: placed, rfl, .headed hl hh h⟩

theorem whole {l : ShapedLoop} {wrap : Body → Node} (hl : pl.loopAt? l.header = some l)
    (hw : pl.whole? l = some wrap) (h : pl.Lays (pl.frame l :: fr) (.place none l.header) body cs) :
    pl.Lays fr (.loop l) [wrap body] cs := by
  obtain ⟨placed, rfl, h⟩ := h
  exact ⟨placed, rfl, .whole hl hw h⟩

theorem build_eq_ok (h : pl.Lays [] (.region none (some 0)) body cs) (hn : cs.Nodup)
    (hin : ∀ x ∈ cs, x < pl.flow.size) (hall : ∀ x ∈ pl.flow.order, x ∈ cs) : pl.build = .ok body := by
  obtain ⟨placed, rfl, h⟩ := h
  have hperm : (placed.map Prod.fst ++ (List.range pl.flow.size).filter (· ∉ placed.map Prod.fst)).Perm
      (List.range pl.flow.size) := by
    refine (List.perm_ext_iff_of_nodup ?_ List.nodup_range).2 fun x => ?_
    · refine hn.append (List.nodup_range.filter _) fun x hx hx' => ?_
      simp only [List.mem_filter, decide_eq_true_eq] at hx'
      exact hx'.2 hx
    · have := hin x
      simp only [List.mem_append, List.mem_filter, List.mem_range, decide_eq_true_eq]
      grind
  obtain ⟨⟨⟨body', left⟩, hle⟩, hr, hbody, hleft⟩ := h.yields hperm
  obtain rfl : body' = body := hbody
  have hnone : pl.flow.order.find? left.contains = none := by
    refine List.find?_eq_none.2 fun x hx hxl => ?_
    have := hleft.mem_iff.1 (List.contains_iff_mem.1 hxl)
    simp only [List.mem_filter, decide_eq_true_eq] at this
    exact this.2 (hall x hx)
  rw [build]
  simp only [hr, hnone]

end Lays

structure Restores (p : Proto) (t : Locals) (bs : List BlockId) (ls : List Extent) (a : Option Around)
    (body : Body) (b : BlockId) (cs : List BlockId) (ks : List Extent) : Prop where
  place : ∀ fr, (plain p t).Sits bs ls a fr b cs ks → b ∈ cs → (∀ l ∈ ks, l.header ≠ b) →
    (plain p t).Lays fr (.place none b) body cs
  region : ∀ fr, (plain p t).Stands bs ls a fr b cs ks → (plain p t).Lays fr (.region none (some b)) body cs

section Restored

variable {p : Proto} {t : Locals} {bs cs ts es : List BlockId} {ls ks ks' : List Extent} {fr : List Frame}
  {body x y rest : Body} {b j m u e w : BlockId} {c : Expr} {a : Option Around} {A : Around}
  (hp : p.WellShaped) (hc : p.Charted bs ls)
include hp hc

theorem lays_passes (h : p.Passes body b j cs) (hs : (cs ++ [j]).Sublist bs)
    (hx : ∀ x ∈ cs, Lies ls fr x) (ho : ∀ x ∈ cs ++ [j], ∀ F ∈ fr.head?, x ∈ F.owned) :
    (plain p t).Lays fr (.region (some j) (some b)) body cs := by
  have region {cs : List BlockId} {j b : BlockId} {body : Body} (hs : (cs ++ [j]).Sublist bs) (hb : b ∈ cs)
      (hx : Lies ls fr b) (h : (plain p t).Lays fr (.place (some j) b) body cs) :
      (plain p t).Lays fr (.region (some j) (some b)) body cs := by
    refine .block (fun h => ?_) hx.apart (loopAt?_eq_none hp hc hx.header) h
    obtain rfl := Option.some.inj h
    exact List.disjoint_of_nodup_append (hs.nodup hc.nodup) hb (.head _)
  induction h with
  | done => exact ⟨[], rfl, .stopped⟩
  | @always b t' j rest cs hj h ih =>
    exact region hs (.head _) (hx b (.head _)) (.always (hx b (.head _)).closing hj
      (ih ((List.sublist_cons_self b _).trans hs) (fun x h => hx x (.tail _ h)) fun x h => ho x (.tail _ h)))
  | @branch b t' e m j c x y rest ts es cs hj hpx hpy h ihx ihy ihr =>
    have hm : m ∈ cs ++ [j] := by
      have := h.start
      grind
    have hem : (es ++ [m]).Sublist (es ++ (cs ++ [j])) :=
      (List.Sublist.refl es).append (List.singleton_sublist.2 hm)
    have hbm : (b :: (ts ++ (es ++ [m]))).Sublist bs :=
      .trans (by simpa using ((List.Sublist.refl ts).append hem).cons_cons b) hs
    have hcj : (cs ++ [j]).Sublist bs :=
      .trans (by simpa using ((List.sublist_append_right es _).trans (List.sublist_append_right ts _)).cons b) hs
    obtain ⟨htm, hem⟩ := arms_sublist hbm
    exact region hs (.head _) (hx b (.head _)) (.branch (hx b (.head _)).closing hj
      (mergePoint?_eq_some (hc.mergePoint_of_passes hp hj hpx hpy hbm) (ho m (by grind)))
      (ihx htm (fun v h => hx v (by simp [h])) fun v h => ho v (by grind))
      (ihy hem (fun v h => hx v (by simp [h])) fun v h => ho v (by grind))
      (ihr hcj (fun v h => hx v (by simp [h])) fun v h => ho v (by grind)))

namespace Restores

theorem of_place (hb : b ∈ cs) (hk : cs.Nodup → ∀ l ∈ ks, l.header ≠ b)
    (h : ∀ fr, (plain p t).Sits bs ls a fr b cs ks → (plain p t).Lays fr (.place none b) body cs) :
    Restores p t bs ls a body b cs ks := by
  refine ⟨fun fr hs _ _ => h fr hs, fun fr hs => .block (by simp) (fun F hF => ?_) ?_ (h fr hs.toSits)⟩
  · exact ⟨hs.apart' F hF b hb, (hs.apart F hF b hb).1⟩
  · exact loopAt?_eq_none hp hc fun l hl he =>
      hk (hs.blocks.nodup hc.nodup) l (hs.own' l hl (he ▸ hb)) he

theorem leave (hj : p.jump b = .leave) : Restores p t bs ls a ((p.body b).map .stmt) b [b] [] :=
  of_place hp hc (.head _) (by simp) fun fr hs =>
    ⟨[(b, fr)], rfl, .leave (hs.not_closing hp hc (by simp [hj, Jump.targets])) hj⟩

omit hp hc in
theorem again : Restores p t bs ls (some A) [] A.header [] [] := by
  refine ⟨fun fr _ hb => absurd hb (by simp), fun fr hs => ⟨[], rfl, ?_⟩⟩
  have hsur := hs.surrounds
  cases hsur with
  | loop hl hh hw hclose => exact .header (by simp) (by simp [Frame.arrive, frame, hh])

theorem brk : Restores p t bs ls (some A) [.brk] A.follow [] [] := by
  refine ⟨fun fr _ hb => absurd hb (by simp), fun fr hs => ⟨[], rfl, ?_⟩⟩
  have hr := hc.reducible hp
  have hsur := hs.surrounds
  cases hsur with
  | @loop A l outer hl hh hw hclose =>
    have hfits := (plain_fits (t := t) hp hr).loops hl
    have hne : A.follow ≠ l.header := fun h => hfits.follow hw (h ▸ hfits.header_mem (plain_fits hp hr))
    exact .follow (by simp) (by simp [Frame.arrive, frame, hne, hw])

theorem closing (hcl : A.closing = some b) : Restores p t bs ls (some A) ((p.body b).map .stmt) b [b] [] := by
  refine of_place hp hc (.head _) (by simp) fun fr hs => ⟨[(b, fr)], rfl, .closing ?_⟩
  have hsur := hs.surrounds
  cases hsur with
  | loop hl hh hw hclose => exact hclose.trans hcl

theorem always (hj : p.jump b = .always u) (h : p.Ends a rest u cs ks)
    (ih : Restores p t bs ls a rest u cs ks) :
    Restores p t bs ls a ((p.body b).map .stmt ++ rest) b (b :: cs) ks := by
  have hju := Proto.targets_of_always hj
  have hks : (b :: cs).Nodup → ∀ l ∈ ks, l.header ≠ b := fun hd l hl => by
    have := h.header_mem hl
    grind
  refine of_place hp hc (.head _) hks fun fr hs => ?_
  have hd := hs.blocks.nodup hc.nodup
  refine .always (hs.not_closing hp hc fun v hv => ?_) hj (ih.region fr ?_)
  · have := h.resumes
    clear hs
    grind
  · exact hs.inner (List.sublist_cons_self _ _) (List.nodup_cons.1 hd).1 (fun _ h => h) fun _ h _ => h

theorem rejoin (hj : p.jump b = .branch c u e) (hx : p.Passes x u m ts) (hy : p.Passes y e m es)
    (h : p.Ends a rest m cs ks) (hm : m ∈ cs) (hback : ∀ A ∈ a, ∃ u ∈ cs, A.header ∈ (p.jump u).targets)
    (ih : Restores p t bs ls a rest m cs ks) :
    Restores p t bs ls a ((p.body b).map .stmt ++ conditional c x y :: rest) b
      (b :: (ts ++ (es ++ cs))) ks := by
  have hju := Proto.targets_of_branch hj
  have hks : (b :: (ts ++ (es ++ cs))).Nodup → ∀ l ∈ ks, l.header ≠ b := fun hd l hl => by
    have := h.header_mem hl
    grind
  refine of_place hp hc (.head _) hks fun fr hs => ?_
  have hd := hs.blocks.nodup hc.nodup
  have hcs : (b :: (ts ++ (es ++ [m]))).Sublist bs :=
    have hem := (List.Sublist.refl es).append (List.singleton_sublist.2 hm)
    (((List.Sublist.refl ts).append hem).cons_cons b).trans hs.blocks
  obtain ⟨htm, hem⟩ := arms_sublist hcs
  have lies := lies_of_rejoin hp hc hs hx hy h hm
  have owned := owned_of_rejoin hp hc hs hx hy h hback hm
  refine .branch (hs.not_closing hp hc fun v hv => ?_) hj
    (mergePoint?_eq_some (hc.mergePoint_of_passes hp hj hx hy hcs) (owned m (by simp)))
    (lays_passes hp hc hx htm (fun v hv => lies v (by simp [hv])) fun v hv => owned v (by grind))
    (lays_passes hp hc hy hem (fun v hv => lies v (by simp [hv])) fun v hv => owned v (by grind))
    (ih.region fr ?_)
  · have := hx.start
    have := hy.start
    clear hs hcs htm hem lies owned
    grind
  · exact hs.inner (((List.sublist_append_right es _).trans (List.sublist_append_right ts _)).cons b)
      (by grind) (fun _ h => h) fun _ h _ => h

theorem fork (hj : p.jump b = .branch c u e) (hx : p.Ends a x u ts ks) (hy : p.Ends a y e es ks')
    (ihx : Restores p t bs ls a x u ts ks) (ihy : Restores p t bs ls a y e es ks') :
    Restores p t bs ls a ((p.body b).map .stmt ++ [conditional c x y]) b (b :: (ts ++ es)) (ks ++ ks') := by
  have hju := Proto.targets_of_branch hj
  have hks : (b :: (ts ++ es)).Nodup → ∀ l ∈ ks ++ ks', l.header ≠ b := fun hd l hl => by
    have := fun h => hx.header_mem (l := l) h
    have := fun h => hy.header_mem (l := l) h
    grind
  refine of_place hp hc (.head _) hks fun fr hs => ?_
  have hd := hs.blocks.nodup hc.nodup
  rw [← List.append_nil es]
  refine .branch (hs.not_closing hp hc fun v hv => ?_) hj (mergePoint?_fork hp hc hs hj hx hy)
    (ihx.region fr ?_) (ihy.region fr ?_) ⟨[], rfl, .absent⟩
  · have := hx.resumes
    have := hy.resumes
    clear hs
    grind
  · refine hs.inner ((List.sublist_append_left ts es).cons b) (by grind) (fun l hl => by simp [hl])
      fun l hl hlt => (List.mem_append.1 hl).resolve_right fun hl => ?_
    have := hy.header_mem hl
    grind
  · refine hs.inner ((List.sublist_append_right ts es).cons b) (by grind) (fun l hl => by simp [hl])
      fun l hl hle => (List.mem_append.1 hl).resolve_left fun hl => ?_
    have := hx.header_mem hl
    grind

theorem whileDo (hb : p.body b = []) (hj : p.Tests b c u e) (hx : p.Ends (some ⟨b, e, none⟩) x u ts ks)
    (hback : ∃ u ∈ b :: ts, b ∈ (p.jump u).targets) (h : p.Ends a rest e es ks')
    (ihx : Restores p t bs ls (some ⟨b, e, none⟩) x u ts ks) (ih : Restores p t bs ls a rest e es ks') :
    Restores p t bs ls a (.whileDo c x :: rest) b (b :: (ts ++ es)) (⟨b, ts⟩ :: (ks ++ ks')) := by
  refine ⟨fun fr _ _ hk => absurd rfl (hk _ (.head _)), fun fr hs => ?_⟩
  have hd := hs.blocks.nodup hc.nodup
  have he : e ∉ b :: ts := follow_notMem hd hs.clear h
  have hbt : b ∉ ts := by grind
  obtain ⟨ns, hl⟩ := loopAt?_while (t := t) hp hc (hs.loops _ (.head _)) hb hj hx hback he
  have hin : (plain p t).Stands bs ls (some ⟨b, e, none⟩) (_ :: fr) u ts ks :=
    (hs.enter (l := ⟨b, ns, .pretest c u e⟩) hc hl rfl rfl rfl rfl he
      (List.sublist_cons_self b ts) (fun h => absurd h hbt) h).2 hbt
  exact .loop (by simp) hs.arrive (.headed hl rfl (ihx.region _ hin))
    (ih.region fr (hs.behind hd fun l hl => .tail _ (hx.header_mem hl)))

theorem repeatUntil (hb : p.body b ≠ []) (hj : p.Tests u c w b)
    (hx : p.Ends (some ⟨b, w, some u⟩) x b (b :: ts) ks) (hu : u ∈ b :: ts)
    (hks : ∀ l ∈ ks, l.header ≠ b) (h : p.Ends a rest w es ks')
    (ihx : Restores p t bs ls (some ⟨b, w, some u⟩) x b (b :: ts) ks)
    (ih : Restores p t bs ls a rest w es ks') :
    Restores p t bs ls a (.repeatUntil x c :: rest) b (b :: (ts ++ es)) (⟨b, ts⟩ :: (ks ++ ks')) := by
  refine ⟨fun fr _ _ hk => absurd rfl (hk _ (.head _)), fun fr hs => ?_⟩
  have hd := hs.blocks.nodup hc.nodup
  have hw : w ∉ b :: ts := follow_notMem hd hs.clear h
  obtain ⟨ns, hl⟩ := loopAt?_repeat (t := t) hp hc (hs.loops _ (.head _)) hb hj hx hu hks hw
  have hwhole : (plain p t).whole? ⟨b, ns, .posttest u w⟩ = some (.repeatUntil · c) := by
    have := @untilTest?_of_tests (plain p t) b u w c hj fun h => hw (h ▸ .head _)
    simp [whole?, this]
  have hin : (plain p t).Sits bs ls (some ⟨b, w, some u⟩) (_ :: fr) b (b :: ts) ks :=
    (hs.enter (l := ⟨b, ns, .posttest u w⟩) hc hl rfl rfl rfl rfl hw
      (List.Sublist.refl _) (fun _ => ⟨rfl, by simp⟩) h).1
  exact .loop (by simp) hs.arrive (.whole hl hwhole (ihx.place _ hin (.head _) hks))
    (ih.region fr (hs.behind hd fun l hl => hx.header_mem hl))

end Restores

theorem restores_of_ends (h : p.Ends a body b cs ks) : Restores p t bs ls a body b cs ks := by
  induction h with
  | leave hj => exact .leave hp hc hj
  | again => exact .again
  | brk => exact .brk hp hc
  | closing hcl => exact .closing hp hc hcl
  | always hj h ih => exact .always hp hc hj h ih
  | rejoin hj hx hy h hm hback ih => exact .rejoin hp hc hj hx hy h hm hback ih
  | fork hj hx hy ihx ihy => exact .fork hp hc hj hx hy ihx ihy
  | whileDo hb hj hx hback h ihx ih => exact .whileDo hp hc hb hj hx hback h ihx ih
  | repeatUntil hb hj hx hu hks h ihx ih => exact .repeatUntil hp hc hb hj hx hu hks h ihx ih

end Restored

end Plan

namespace Proto

variable {p : Proto} {body : Body} {bs : List BlockId} {ls : List Extent}

theorem Ends.build_eq_ok (hp : p.WellShaped) (h : p.Ends none body 0 bs ls) (hn : bs.Nodup) (t : Locals) :
    (Plan.plain p t).build = .ok body := by
  have hc := h.charted hn
  refine ((Plan.restores_of_ends (t := t) hp hc h).region [] ?_).build_eq_ok hn (fun x hx => ?_) fun x hx => ?_
  · exact {
      blocks := .refl _, loops := fun _ h => h, own := fun _ h _ => .inl h, surrounds := .top
      holds := fun _ h => absurd h (by simp), apart := fun _ h => absurd h (by simp)
      clear := fun _ h => absurd h (by simp), own' := fun _ h _ => h
      apart' := fun _ h => absurd h (by simp) }
  · exact Flow.Rooted.lt_size hp.rooted ((hc.isReachable_iff hp).2 hx)
  · have hx : x ∈ (Flow.of p).order := hx
    exact (hc.isReachable_iff hp).1 (Flow.mem_order.1 hx)

theorem structure?_of_ends {o : Options} (hf : o.skipTestFolding = true) (hl : o.skipForLoops = true)
    (hp : p.violation? = none) (h : p.Ends none body 0 bs ls) (hn : bs.Nodup) (t : Locals) :
    ∃ r, p.structure? o t = .ok r ∧ r.body = body := by
  have hw := wellShaped_of_violation hp
  have hred : (Flow.of p).Reducible := (h.charted hn).reducible hw
  have hbuild : (Plan.of p (.of p) (p.classify (.of p) t false).loops).build = .ok body :=
    h.build_eq_ok hw hn t
  rw [Flow.Reducible] at hred
  unfold structure?
  simp only [hf, hl, if_true, Bool.not_true, hred, proto_classify, hbuild, Except.map]
  exact ⟨_, rfl, rfl⟩

example :
    let p : Proto := { id := 0, blocks := [
      ⟨0, 0, 0, [], .branch (.global "a") 1 4⟩, ⟨1, 0, 0, [], .branch (.global "b") 2 3⟩,
      ⟨2, 0, 0, [.ret [] 0], .leave⟩, ⟨3, 0, 0, [.call (.global "f") [] 0], .always 0⟩,
      ⟨4, 0, 0, [.ret [] 0], .leave⟩] }
    ∃ r, p.structure? { skipTestFolding := true, skipForLoops := true } ∅ = .ok r ∧
      r.body = [
        .whileDo (.global "a") [.ifElse (.global "b") [.stmt (.ret [] 0)]
          [.stmt (.call (.global "f") [] 0)]],
        .stmt (.ret [] 0)] := by
  intro p
  have h : p.Ends none _ 0 [0, 1, 2, 3, 4] [⟨0, [1, 2, 3]⟩] :=
    .whileDo rfl (.inl rfl) (.fork rfl (.leave rfl) (.always rfl (.again rfl)))
      ⟨3, by decide, by decide⟩ (.leave rfl)
  exact structure?_of_ends rfl rfl (by cbv) h (by decide) ∅

example :
    let p : Proto := { id := 0, blocks := [
      ⟨0, 0, 0, [], .branch (.global "a") 1 4⟩, ⟨1, 0, 0, [], .branch (.global "b") 2 3⟩,
      ⟨2, 0, 0, [.ret [] 0], .leave⟩, ⟨3, 0, 0, [.call (.global "f") [] 0], .always 4⟩,
      ⟨4, 0, 0, [.ret [] 0], .leave⟩] }
    (p.structure? { skipTestFolding := true, skipForLoops := true } ∅).isOk = false := by
  cbv

end Proto

end LuaLift
