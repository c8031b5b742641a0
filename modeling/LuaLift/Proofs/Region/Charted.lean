import LuaLift.Proofs.Flow.Acyclic
import LuaLift.Proofs.Flow.MergePoints
import LuaLift.Proofs.Region.Source
import Mathlib.Data.List.Nodup

namespace LuaLift

open Relation

theorem Precedes.idxOf_lt {bs : List BlockId} {u t : BlockId} (h : Precedes bs u t) (hn : bs.Nodup) :
    bs.idxOf u < bs.idxOf t :=
  idxOf_lt_of_sublist h hn

theorem Precedes.mono {bs cs : List BlockId} {u t : BlockId} (h : Precedes bs u t)
    (hs : bs.Sublist cs) : Precedes cs u t :=
  h.trans hs

def Around.Holds (ls : List Extent) (A : Around) (x : BlockId) : Prop :=
  ∃ l ∈ ls, l.header = A.header ∧ x ∈ l.blocks

namespace Proto

structure Charted (p : Proto) (bs : List BlockId) (ls : List Extent) : Prop where
  nodup : bs.Nodup
  head : ∃ cs, bs = 0 :: cs
  edge : ∀ {u t : BlockId}, u ∈ bs → t ∈ (p.jump u).targets →
    Precedes bs u t ∨ ∃ l ∈ ls, t = l.header ∧ u ∈ l.blocks
  led : p.Led 0 bs
  blocks : ∀ {l : Extent}, l ∈ ls → l.blocks.Sublist bs
  headers : (ls.map (·.header)).Nodup
  sealed : ∀ {l : Extent}, l ∈ ls → ∀ {u t : BlockId}, u ∈ bs → t ∈ (p.jump u).targets → t ∈ l.rest →
    u ∈ l.blocks

variable {p : Proto} {bs cs : List BlockId} {ls ks : List Extent} {body : Body} {b j m : BlockId}
  {a : Option Around}

theorem Ends.charted (h : p.Ends none body 0 bs ls) (hn : bs.Nodup) : p.Charted bs ls where
  nodup := hn
  head := by
    rcases h.start with h | ⟨-, -, A, hA, -⟩
    · exact h
    · cases hA
  edge hu ht := by
    rcases h.edge hu ht with h | ⟨A, hA, -⟩ | h
    · exact .inl h
    · cases hA
    · exact .inr h
  led := h.led
  blocks hl := h.blocks_sublist hl
  headers := h.nodup_headers hn
  sealed hl _ _ hu ht hr := h.sealed hn (fun _ hA => by cases hA) hl hu ht hr

namespace Charted

variable (hc : p.Charted bs ls)
include hc

theorem zero_mem : 0 ∈ bs := by
  obtain ⟨cs, rfl⟩ := hc.head
  exact .head _

theorem eq_of_header {l l' : Extent} (hl : l ∈ ls) (hl' : l' ∈ ls) (h : l.header = l'.header) : l = l' :=
  List.inj_on_of_nodup_map hc.headers hl hl' h

theorem zero_notMem {l : Extent} (hl : l ∈ ls) : 0 ∉ l.rest := by
  intro h
  have hp : Precedes bs l.header 0 :=
    Precedes.mono (precedes_cons.2 (.inl ⟨rfl, h⟩)) (hc.blocks hl)
  have hn := hc.nodup
  obtain ⟨cs, rfl⟩ := hc.head
  have := @Precedes.mem cs l.header 0
  grind

variable (hp : p.WellShaped)
include hp

theorem bypasses {x t : BlockId} (hx : x ∈ bs) (ht : bs.idxOf x < bs.idxOf t) :
    (Flow.of p).graph.Bypasses t 0 x := by
  induction hk : bs.idxOf x using Nat.strongRecOn generalizing x with
  | _ k ih =>
    have hne : x ≠ t := by
      rintro rfl
      exact Nat.lt_irrefl _ ht
    rcases hc.led x hx with rfl | ⟨u, hu, hxu⟩
    · exact ⟨hne, .refl⟩
    · have hlt := hu.idxOf_lt hc.nodup
      rw [← hp.successors] at hxu
      exact (ih _ (hk ▸ hlt) hu.mem.1 (Nat.lt_trans hlt ht) rfl).tail hxu hne

theorem isReachable_iff {x : BlockId} : (Flow.of p).isReachable x = true ↔ x ∈ bs := by
  rw [hp.isReachable_iff]
  constructor
  · intro h
    induction h with
    | refl => exact hc.zero_mem
    | @tail u t _ ht ih =>
      have ht : t ∈ (p.jump u).targets := by rw [← hp.successors]; exact ht
      rcases hc.edge ih ht with h | ⟨l, hl, rfl, -⟩
      · exact h.mem.2
      · exact (hc.blocks hl).subset (.head _)
  · intro hx
    induction hk : bs.idxOf x using Nat.strongRecOn generalizing x with
    | _ k ih =>
      rcases hc.led x hx with rfl | ⟨u, hu, hxu⟩
      · exact .refl
      · rw [← hp.successors] at hxu
        exact (ih _ (hk ▸ hu.idxOf_lt hc.nodup) hu.mem.1 rfl).tail hxu

theorem forward {u t : BlockId} (h : Precedes bs u t) (ht : t ∈ (p.jump u).targets) :
    (Flow.of p).Forward u t := by
  refine ⟨(hc.isReachable_iff hp).2 h.mem.1, hp.successors u ▸ ht, Bool.eq_false_iff.2 fun hd => ?_⟩
  have hf : (Flow.of p).Rooted := hp.rooted
  exact (hf.dominates_iff.1 hd).2 (hc.bypasses hp h.mem.1 (h.idxOf_lt hc.nodup))

theorem dominates {l : Extent} (hl : l ∈ ls) {u : BlockId} (hu : u ∈ l.blocks) :
    (Flow.of p).dominance.dominates l.header u = true := by
  have hf : (Flow.of p).Rooted := hp.rooted
  refine hf.dominates_iff.2 ⟨(hc.isReachable_iff hp).2 ((hc.blocks hl).subset hu), fun hb => ?_⟩
  have outside : u ∉ l.blocks := by
    obtain ⟨h0, hb⟩ := hb
    clear hu
    induction hb with
    | refl => simpa using ⟨h0, hc.zero_notMem hl⟩
    | @tail u t hut ht ih =>
      have hu : u ∈ bs := (hc.isReachable_iff hp).1 (hp.isReachable_iff.2 (Digraph.ReachesIn.reaches hut))
      have htu : t ∈ (p.jump u).targets := by rw [← hp.successors]; exact ht.1
      intro hm
      exact ih (hc.sealed hl hu htu ((Extent.mem_blocks.1 hm).resolve_left ht.2))
  exact outside hu

theorem backEdge {l : Extent} (hl : l ∈ ls) {u : BlockId} (hu : u ∈ l.blocks)
    (ht : l.header ∈ (p.jump u).targets) : (Flow.of p).BackEdge u l.header :=
  ⟨(hc.isReachable_iff hp).2 ((hc.blocks hl).subset hu), hp.successors u ▸ ht, hc.dominates hp hl hu⟩

theorem idxOf_lt {u t : BlockId} (h : (Flow.of p).Forward u t) : bs.idxOf u < bs.idxOf t := by
  have hu := (hc.isReachable_iff hp).1 h.reachable
  have ht : t ∈ (p.jump u).targets := by rw [← hp.successors]; exact h.edge
  rcases hc.edge hu ht with hpr | ⟨l, hl, rfl, hul⟩
  · exact hpr.idxOf_lt hc.nodup
  · exact absurd (hc.backEdge hp hl hul ht) h.not_back

theorem exists_of_backEdge {u t : BlockId} (h : (Flow.of p).BackEdge u t) :
    ∃ l ∈ ls, t = l.header ∧ u ∈ l.blocks := by
  have hu := (hc.isReachable_iff hp).1 h.reachable
  have ht : t ∈ (p.jump u).targets := by rw [← hp.successors]; exact h.edge
  exact (hc.edge hu ht).resolve_left fun hpr => (hc.forward hp hpr ht).not_back h

theorem reducible : (Flow.of p).Reducible := by
  refine Flow.Rooted.reducible_of_acyclic hp.rooted fun u t h hback => ?_
  have hle : bs.idxOf t ≤ bs.idxOf u := by
    clear h
    induction hback with
    | refl => exact Nat.le_refl _
    | tail _ h ih => exact Nat.le_trans ih (Nat.le_of_lt (hc.idxOf_lt hp h))
  exact absurd (hc.idxOf_lt hp h) (Nat.not_lt.2 hle)

theorem mem_blocks_of_mem_body {n : NaturalLoop} (hn : (Flow.of p).IsLoop n) {l : Extent} (hl : l ∈ ls)
    (hh : l.header = n.header) {x : BlockId} (hx : x ∈ n.body) : x ∈ l.blocks := by
  obtain ⟨-, rfl | ⟨r, hr, -, hrh, hpath⟩⟩ := hn.mem_body.1 hx
  · simp [hh]
  · clear hx
    induction hpath with
    | refl =>
      obtain ⟨l', hl', hh', hr'⟩ := hc.exists_of_backEdge hp (hn.mem_latches.1 hr)
      obtain rfl := hc.eq_of_header hl hl' (hh.trans hh')
      exact hr'
    | @tail a b hra hb ih =>
      obtain ⟨hbr, hba⟩ := Flow.mem_predecessors_of_succ hb.1
      have hne : a ≠ n.header := by
        rcases ReflTransGen.cases_tail hra with h | ⟨c, -, hc⟩
        · exact h ▸ hrh
        · exact hc.2.2
      refine hc.sealed hl ((hc.isReachable_iff hp).1 hbr) (by rw [← hp.successors]; exact hba) ?_
      exact (Extent.mem_blocks.1 ih).resolve_left fun h => hne (h.trans hh)

end Charted

theorem Passes.targets_ne_nil (h : p.Passes body b j bs) {u : BlockId} (hu : u ∈ bs) :
    (p.jump u).targets ≠ [] := by
  induction h with
  | done => cases hu
  | always hj h ih =>
    rcases List.mem_cons.1 hu with rfl | hu
    · simp [targets_of_always hj]
    · exact ih hu
  | branch hj hx hy h ihx ihy ihr =>
    rcases List.mem_cons.1 hu with rfl | hu
    · simp [targets_of_branch hj]
    · grind

section Body

variable (hp : p.WellShaped) {n : NaturalLoop} (hn : (Flow.of p).IsLoop n)
include hp hn

theorem source_mem {u v : BlockId} (hv : v ∈ n.body) (hh : v ≠ n.header)
    (hu : (Flow.of p).isReachable u = true) (ht : v ∈ (p.jump u).targets) : u ∈ n.body := by
  rw [← hp.successors] at ht
  exact hn.source_mem hp.rooted hv hh hu ht

theorem Led.mem_body (hl : p.Led b bs) (hd : bs.Nodup) (hr : ∀ x ∈ bs, (Flow.of p).isReachable x = true)
    (hh : n.header ∉ bs) {v : BlockId} (hv : v ∈ bs) (hvn : v ∈ n.body) : b ∈ n.body := by
  induction hk : bs.idxOf v using Nat.strongRecOn generalizing v with
  | _ k ih =>
    rcases hl v hv with rfl | ⟨u, hu, ht⟩
    · exact hvn
    · have hvh : v ≠ n.header := fun h => hh (h ▸ hv)
      exact ih _ (hk ▸ hu.idxOf_lt hd) hu.mem.1 (source_mem hp hn hvn hvh (hr u hu.mem.1) ht) rfl

theorem Passes.mem_body (h : p.Passes body b j bs) (hr : ∀ x ∈ bs, (Flow.of p).isReachable x = true)
    (hh : n.header ∉ bs) (hj : j ∈ n.body) (hjh : j ≠ n.header) :
    b ∈ n.body ∧ b ≠ n.header ∧ ∀ x ∈ bs, x ∈ n.body := by
  induction h with
  | done => exact ⟨hj, hjh, by simp⟩
  | @always b t j rest bs hjump h ih =>
    have hjump := targets_of_always hjump
    obtain ⟨ht, hth, hall⟩ := ih (fun x hx => hr x (.tail _ hx)) (fun h => hh (.tail _ h)) hj hjh
    have hb : b ∈ n.body := source_mem hp hn ht hth (hr b (.head _)) (by simp [hjump])
    exact ⟨hb, fun h => hh (h ▸ .head _), by grind⟩
  | @branch b t e m j c x y rest ts es bs hjump hx hy h ihx ihy ihr =>
    have hjump := targets_of_branch hjump
    obtain ⟨hm, hmh, hrest⟩ := ihr (by grind) (by grind) hj hjh
    obtain ⟨ht, hth, hts⟩ := ihx (by grind) (by grind) hm hmh
    obtain ⟨-, -, hes⟩ := ihy (by grind) (by grind) hm hmh
    have hb : b ∈ n.body := source_mem hp hn ht hth (hr b (.head _)) (by simp [hjump])
    exact ⟨hb, fun h => hh (h ▸ .head _), by grind⟩

end Body

section Merge

variable (hp : p.WellShaped)
include hp

theorem blocks_target {u t : BlockId} (h : (Flow.of p).Blocks m u) (hne : u ≠ m)
    (hu : (Flow.of p).isReachable u = true) (ht : t ∈ (p.jump u).targets) :
    (Flow.of p).Forward u t ∧ (Flow.of p).Blocks m t := by
  rw [← hp.successors] at ht
  exact ⟨h.forward_of_edge hne hu ht, h.successor hp.rooted hne hu ht⟩

theorem Passes.blocks (h : p.Passes body b j bs) (hr : ∀ x ∈ bs, (Flow.of p).isReachable x = true)
    (hm : m ∉ bs) {u : BlockId} (hu : (Flow.of p).Forward u b) (hb : (Flow.of p).Blocks m b) :
    ∃ v, (v = u ∨ v ∈ bs) ∧ (Flow.of p).Forward v j ∧ (Flow.of p).Blocks m j := by
  induction h generalizing u with
  | done => exact ⟨u, .inl rfl, hu, hb⟩
  | @always b t j rest bs hjump h ih =>
    have hjump := targets_of_always hjump
    have hbm : b ≠ m := fun h => hm (h ▸ .head _)
    obtain ⟨hbt, ht⟩ := blocks_target hp hb hbm (hr b (.head _)) (t := t) (by simp [hjump])
    obtain ⟨v, hv, h⟩ := ih (by grind) (by grind) hbt ht
    exact ⟨v, by grind, h⟩
  | @branch b t e m j c x y rest ts es bs hjump hx hy h ihx ihy ihr =>
    have hjump := targets_of_branch hjump
    have hbm : b ≠ _ := fun h => hm (h ▸ .head _)
    obtain ⟨hbt, ht⟩ := blocks_target hp hb hbm (hr b (.head _)) (t := t) (by simp [hjump])
    obtain ⟨v, hv, hvm, hm'⟩ := ihx (by grind) (by grind) hbt ht
    obtain ⟨w, hw, h⟩ := ihr (by grind) (by grind) hvm hm'
    exact ⟨w, by grind, h⟩

end Merge

namespace Charted

variable (hc : p.Charted bs ls) (hp : p.WellShaped)
include hc hp

theorem mergePoint_of_passes {t e m : BlockId} {c : Expr} {x y : Body} {ts es : List BlockId}
    (hj : p.jump b = .branch c t e) (hx : p.Passes x t m ts) (hy : p.Passes y e m es)
    (hs : (b :: (ts ++ (es ++ [m]))).Sublist bs) :
    ((Flow.of p).mergePoints (Flow.of p).dominance)[b]?.join = some m := by
  have hf : (Flow.of p).Rooted := hp.rooted
  have hn := hs.nodup hc.nodup
  have hjt := targets_of_branch hj
  have hin {v : BlockId} (hv : v ∈ b :: (ts ++ (es ++ [m]))) : (Flow.of p).isReachable v = true :=
    (hc.isReachable_iff hp).2 (hs.subset hv)
  have later {u v : BlockId} (hu : u ∈ b :: (ts ++ es)) (hv : v ∈ (p.jump u).targets) :
      Precedes (b :: (ts ++ (es ++ [m]))) u v ∧ (v = m ∨ v ∈ b :: (ts ++ es)) := by
    clear hs hn hin
    have := hx.start
    have := hy.start
    have := hx.edge (u := u) (t := v)
    have := hy.edge (u := u) (t := v)
    have := @Precedes.mem
    grind
  have goes {u : BlockId} (hu : u ∈ b :: (ts ++ es)) : (p.jump u).targets ≠ [] := by
    rcases List.mem_cons.1 hu with rfl | hu
    · simp [hjt]
    · exact (List.mem_append.1 hu).elim hx.targets_ne_nil hy.targets_ne_nil
  have hbm : m ≠ b := by grind
  -- Ways out of the branch go on within it or to `m`. Any other point that none of them misses is missing
  -- from one arm, so it comes behind `m`.
  refine (hf.mergePoint_eq_some_iff (hc.reducible hp)).2 ⟨hin (.head _), hbm, ?_, fun e' he' hne => ?_⟩
  · refine hf.blocks_of_closed (Nat.ne_of_lt (hf.lt_size (hin (by simp)))) (S := (· ∈ b :: (ts ++ es)))
      (fun v hv => ⟨hin (by grind), hp.successors v ▸ goes hv, fun t ht => ?_⟩) (.head _)
    rw [hp.successors] at ht
    obtain ⟨hpr, ht'⟩ := later hv ht
    exact ⟨hc.forward hp (hpr.mono hs) ht, ht'⟩
  · obtain ⟨hbt, ht⟩ := blocks_target hp he' (Ne.symm hne) (hin (.head _)) (t := t) (by simp [hjt])
    obtain ⟨hbe, he⟩ := blocks_target hp he' (Ne.symm hne) (hin (.head _)) (t := e) (by simp [hjt])
    by_cases hmem : e' ∈ ts
    · have hnot : e' ∉ es := by grind
      obtain ⟨-, -, -, h⟩ := hy.blocks hp (fun x hx => hin (by grind)) hnot hbe he
      exact h
    · obtain ⟨-, -, -, h⟩ := hx.blocks hp (fun x hx => hin (by grind)) hmem hbt ht
      exact h

theorem backEdge_of_holds {A : Around} {u : BlockId} (hu : A.Holds ls u)
    (ht : A.header ∈ (p.jump u).targets) : (Flow.of p).BackEdge u A.header := by
  obtain ⟨l, hl, hh, hul⟩ := hu
  rw [← hh] at ht ⊢
  exact hc.backEdge hp hl hul ht

theorem blocks_follow (h : p.Ends a body b cs ks) (hs : ∀ x ∈ cs, x ∈ bs) (hl : ∀ l ∈ ks, l ∈ ls)
    (hin : ∀ A ∈ a, ∀ x ∈ cs, A.Holds ls x) {u : BlockId} (hu : (Flow.of p).Forward u b)
    (hui : b ∉ cs → ∀ A ∈ a, A.Holds ls u) (hm : m ∉ cs) (hb : (Flow.of p).Blocks m b) :
    ∃ A ∈ a, ∃ v, A.Holds ls v ∧ (Flow.of p).Forward v A.follow ∧ (Flow.of p).Blocks m A.follow := by
  have reach {x : BlockId} (hx : x ∈ cs) : (Flow.of p).isReachable x = true :=
    (hc.isReachable_iff hp).2 (hs x hx)
  have next {x t : BlockId} (hx : x ∈ cs) (hbx : (Flow.of p).Blocks m x)
      (ht : t ∈ (p.jump x).targets) := blocks_target hp hbx (fun h => hm (h ▸ hx)) (reach hx) ht
  -- Along the code: it does not end in a return, and no edge back is forward, so what is left is a `break`.
  induction h generalizing u with
  | @leave a b hj =>
    refine absurd ?_ (hb.successors_ne_nil (fun h => hm (h ▸ .head _)) (reach (.head _)))
    rw [hp.successors, hj, Jump.targets]
  | @again A hc' =>
    have hheader : A.header ∈ (p.jump u).targets := by rw [← hp.successors]; exact hu.edge
    exact absurd (hc.backEdge_of_holds hp (hui (by simp) A rfl) hheader) hu.not_back
  | @brk A => exact ⟨A, rfl, u, hui (by simp) A rfl, hu, hb⟩
  | @closing A b c hclose hj =>
    have hheader : A.header ∈ (p.jump b).targets := by simp [hj.mem_targets]
    have hback := hc.backEdge_of_holds hp (hin A rfl b (.head _)) hheader
    exact absurd hback (next (.head _) hb hheader).1.not_back
  | @always a b t rest cs ks hj h ih =>
    obtain ⟨hbt, ht⟩ := next (.head _) hb (t := t) (by simp [targets_of_always hj])
    exact ih (by grind) hl (by grind) hbt (by grind) (by grind) ht (by grind) (by grind)
  | @rejoin a b t e j c x y rest ts es cs ks hj hx hy h hj' hback ih =>
    obtain ⟨hbt, ht⟩ := next (.head _) hb (t := t) (by simp [targets_of_branch hj])
    obtain ⟨v, -, hvj, hjm⟩ := hx.blocks hp (fun x hx => reach (by grind)) (by grind) hbt ht
    exact ih (by grind) hl (by grind) hvj (fun h => absurd hj' h) (by grind) hjm (by grind) (by grind)
  | @fork a b t e c x y ts es ks ks' hj hx hy ihx ihy =>
    obtain ⟨hbt, ht⟩ := next (.head _) hb (t := t) (by simp [targets_of_branch hj])
    exact ihx (by grind) (by grind) (by grind) hbt (by grind) (by grind) ht (by grind) (by grind)
  | @whileDo a b t e c x rest ts es ks ks' hbody hj hx hback h ihx ih =>
    obtain ⟨hbe, he⟩ := next (.head _) hb (t := e) (by simp [hj.mem_targets])
    exact ih (by grind) (by grind) (by grind) hbe (by grind) (by grind) he (by grind) (by grind)
  | @repeatUntil a b v w c x rest ts es ks ks' hbody hj hx hv hks h ihx ih =>
    have hown : (⟨b, ts⟩ : Extent) ∈ ls := hl _ (.head _)
    have hheld {x : BlockId} (hx : x ∈ b :: ts) : (⟨b, w, some v⟩ : Around).Holds ls x := ⟨_, hown, rfl, hx⟩
    obtain ⟨A, hA, z, ⟨l, hl', hh, hz⟩, hzw, hw⟩ := ihx (by grind) (by grind)
      (fun A hA x hx => by cases hA; exact hheld hx) hu (by grind) (by grind) hb (by grind) (by grind)
    cases hA
    obtain rfl := hc.eq_of_header hl' hown hh
    exact ih (by grind) (by grind) (by grind) hzw (fun _ A hA => hin A hA z (by grind)) (by grind) hw
      (by grind) (by grind)

theorem notMem_body {n : NaturalLoop} (hn : (Flow.of p).IsLoop n) {l : Extent} (hl : l ∈ ls)
    (hh : l.header = n.header) {v w : BlockId} (hv : v ∈ l.blocks) (hvw : (Flow.of p).Forward v w)
    (hw : w ∉ n.body) (hwm : ReflTransGen (Flow.of p).Forward w m) : m ∉ n.body := by
  have hle : bs.idxOf l.header ≤ bs.idxOf v := by
    rcases Extent.mem_blocks.1 hv with rfl | hv
    · exact Nat.le_refl _
    · exact Nat.le_of_lt (Precedes.idxOf_lt ((precedes_cons.2 (.inl ⟨rfl, hv⟩) :
        Precedes l.blocks l.header v).mono (hc.blocks hl)) hc.nodup)
  have hlt := hc.idxOf_lt hp hvw
  have behind : m ∉ n.body ∧ bs.idxOf w ≤ bs.idxOf m := by
    induction hwm with
    | refl => exact ⟨hw, Nat.le_refl _⟩
    | @tail x y _ hxy ih =>
      have hxlt := hc.idxOf_lt hp hxy
      refine ⟨fun hy => ?_, by omega⟩
      have hne : y ≠ n.header := by
        rintro rfl
        rw [hh] at hle
        omega
      refine ih.1 (source_mem hp hn hy hne hxy.reachable ?_)
      rw [← hp.successors]
      exact hxy.edge
  exact behind.1

end Charted

end Proto

end LuaLift
