import LuaLift.Proofs.Region.Behind

/-!
The tree of a plan runs like its blocks. Between two blocks that do something both machines may go on
silently, the blocks through empty ones, the tree out of bodies that have come to their end.
-/

namespace LuaLift

open Machine

variable {σ : Type} {m : Meaning σ}

namespace Node

theorem steps_stmts {l : List Stmt} (hl : ∀ t ∈ l, t.isReturn = false) (rest : Body) (k : List Context)
    (s : σ) : (Node.machine m m.decide).Steps ⟨l.map .stmt ++ rest, k, s⟩ (l.map .stmt)
      ⟨rest, k, m.runAll l s⟩ l.length := by
  induction l generalizing s with
  | nil => exact .refl _
  | cons t l ih =>
    have hn : (Node.machine m m.decide).next ⟨.stmt t :: (l.map .stmt ++ rest), k, s⟩ =
        some ([.stmt t], ⟨l.map .stmt ++ rest, k, m.run t s⟩) := by
      simp [machine, enter, hl t (.head _)]
    exact .step hn (ih (fun u hu => hl u (.tail _ hu)) (m.run t s))

theorem next_conditional (c : Expr) (a b rest : Body) (k : List Context) (s : σ) :
    ∃ d, (Node.machine m m.decide).next ⟨Plan.conditional c a b :: rest, k, s⟩ =
        some ((m.decide c s).events, d) ∧
      (d = ⟨if (m.decide c s).holds then a else b, .rest rest :: k, (m.decide c s).state⟩ ∨
        (if (m.decide c s).holds then a else b) = [] ∧ d = ⟨rest, k, (m.decide c s).state⟩) := by
  have negated : (Node.machine m m.decide).next ⟨.ifThen c.negate b :: rest, k, s⟩ =
      some ((m.decide c s).events, if (m.decide c s).holds then ⟨rest, k, (m.decide c s).state⟩
        else ⟨b, .rest rest :: k, (m.decide c s).state⟩) := by
    simp only [machine, enter, Meaning.decide_negate, Verdict.negated_events, Verdict.negated_holds,
      Verdict.negated_state]
    cases (m.decide c s).holds <;> rfl
  unfold Plan.conditional
  split
  · next hb =>
    refine ⟨_, rfl, ?_⟩
    cases (m.decide c s).holds
    · exact .inr ⟨by simpa using hb, rfl⟩
    · exact .inl rfl
  · split
    · next ha =>
      refine ⟨_, negated, ?_⟩
      cases (m.decide c s).holds
      · exact .inl rfl
      · exact .inr ⟨by simpa using ha, rfl⟩
    · refine ⟨_, rfl, .inl ?_⟩
      cases (m.decide c s).holds <;> rfl

end Node

namespace Plan

def PlainLoop (pl : Plan) (l : ShapedLoop) : Prop :=
  match l.shape with
  | .pretest c entry w => pl.proto.body l.header = [] ∧ (pl.proto.jump l.header = .branch c entry w ∨
      ∃ e, c = e.negate ∧ pl.proto.jump l.header = .branch e w entry)
  | .posttest .. | .endless _ => True
  | .numeric .. | .generic .. => False

/-- A plan without idioms that fits its graph, for blocks in which nothing comes behind a return. -/
structure Regular (pl : Plan) : Prop extends pl.Fits where
  plain : ∀ {l : ShapedLoop}, pl.loopAt? l.header = some l → pl.PlainLoop l
  returns : ∀ {b : BlockId} {l r : List Stmt} {s : Stmt}, pl.proto.body b = l ++ s :: r →
    s.isReturn = true → r = [] ∧ (pl.proto.jump b).targets = []

structure Sound (pl : Plan) : Prop extends pl.Regular where
  ends : ∀ {b : BlockId}, pl.flow.isReachable b = true → pl.proto.jump b = .leave →
    ∃ l s, pl.proto.body b = l ++ [s] ∧ s.isReturn = true

def Returning (pl : Plan) (T : Placed) : Prop := ∀ {b : BlockId} {F : Frame} {fr : List Frame},
  (b, F :: fr) ∈ T → pl.flow.isReachable b = true → pl.proto.jump b = .leave →
    ∃ l s, pl.proto.body b = l ++ [s] ∧ s.isReturn = true

variable {pl : Plan} {T : Placed} {fr : List Frame} {stop : Option BlockId} {k : List Context}
  {ms : List BlockId} {placed later : Placed}

theorem Behind.innermost (h : pl.Behind T fr stop k ms later) (hfr : fr ≠ []) :
    ∃ node after k' later', Context.escape k = some (after, k') ∧
      pl.Behind T fr none (.loop node after :: k') [] later' ∧ later'.Sublist later ∧
      k'.length < k.length ∧
      (ms = [] → ∀ s : σ, ∃ n, (Node.machine m m.decide).Steps ⟨[], k, s⟩ []
        ⟨[], .loop node after :: k', s⟩ n) := by
  induction h with
  | top => exact absurd rfl hfr
  | merge _ _ _ ih =>
    obtain ⟨node, after, k', later', he, hb, hs, hk, -⟩ := ih hfr
    exact ⟨node, after, k', later', he, hb, hs.trans (List.sublist_append_right _ _),
      Nat.lt_succ_of_lt hk, fun hm => by cases hm⟩
  | unmerged _ ih =>
    obtain ⟨node, after, k', later', he, hb, hs, hk, hsteps⟩ := ih hfr
    refine ⟨node, after, k', later', he, hb, hs, Nat.lt_succ_of_lt hk, fun hm s => ?_⟩
    obtain ⟨n, hn⟩ := hsteps hm s
    exact ⟨1 + n, (Steps.one (by rfl)).after hn⟩
  | loop hs ha hn hr hk hT =>
    exact ⟨_, _, _, _, rfl, .loop hs ha hn hr hk hT, List.Sublist.refl _, Nat.lt_succ_self _,
      fun _ s => ⟨0, .refl _⟩⟩

inductive Live (pl : Plan) (T : Placed) : BlockId → Body → List Context → Prop
  | block {fr : List Frame} {stop : Option BlockId} {b : BlockId} {todo : Body} {k : List Context}
      {ms : List BlockId} {placed later : Placed} (hb : pl.Builds fr (.place stop b) todo placed)
      (hk : pl.Behind T fr stop k ms later) (hT : (placed ++ later).Sublist T)
      (hr : pl.flow.isReachable b = true) (hm : ∀ m ∈ ms, pl.flow.Blocks m b ∧ m ≠ b)
      (hbusy : pl.proto.body b ≠ [] ∨ closing? fr ≠ some b ∧ ∃ c t e, pl.proto.jump b = .branch c t e) :
      Live pl T b todo k
  | loop {fr : List Frame} {stop : Option BlockId} {l : ShapedLoop} {node : Node} {after : Body}
      {k : List Context} {inner outer later : Placed} (hs : stop ≠ some l.header)
      (ha : Frame.arrive l.header fr = .inside) (hn : pl.Builds fr (.loop l) [node] inner)
      (ho : pl.Builds fr (.region stop l.shape.follow?) after outer) (hk : pl.Behind T fr stop k [] later)
      (hT : (inner ++ (outer ++ later)).Sublist T) (hr : pl.flow.isReachable l.header = true) :
      Live pl T l.header (node :: after) k
  | latch {F : Frame} {fr : List Frame} {b : BlockId} {node : Node} {after : Body} {k : List Context}
      {later : Placed} (hb : (b, F :: fr) ∈ T) (hc : F.closing = some b)
      (hk : pl.Behind T (F :: fr) none (.loop node after :: k) [] later)
      (hr : pl.flow.isReachable b = true) (he : pl.proto.body b = []) :
      Live pl T b [] (.loop node after :: k)

theorem Regular.undisturbed (hpl : pl.Regular) {b : BlockId}
    (h : (pl.proto.jump b).targets ≠ []) :
    ∀ t ∈ pl.proto.body b, t.isReturn = false := by
  intro t ht
  obtain ⟨l, r, hlr⟩ := List.append_of_mem ht
  cases hr : t.isReturn with
  | false => rfl
  | true => exact absurd (hpl.returns hlr hr).2 h

theorem Regular.returns_or_falls (hpl : pl.Regular) (b : BlockId) :
    (∃ l s, pl.proto.body b = l ++ [s] ∧ s.isReturn = true ∧ ∀ t ∈ l, t.isReturn = false) ∨
      ∀ s ∈ pl.proto.body b, s.isReturn = false := by
  by_cases h : ∃ s ∈ pl.proto.body b, s.isReturn = true
  · obtain ⟨s, hs, hret⟩ := h
    obtain ⟨l, r, he⟩ := List.append_of_mem hs
    obtain ⟨rfl, -⟩ := hpl.returns he hret
    refine .inl ⟨l, s, he, hret, fun t ht => Bool.eq_false_iff.2 fun htr => ?_⟩
    obtain ⟨l₁, l₂, rfl⟩ := List.append_of_mem ht
    have := (hpl.returns (b := b) (l := l₁) (r := l₂ ++ [s]) (by simp [he]) htr).1
    simp at this
  · exact .inr fun s hs => Bool.eq_false_iff.2 fun hret => h ⟨s, hs, hret⟩

theorem Regular.nil_of_leave (hpl : pl.Regular) {b : BlockId} (hr : pl.flow.isReachable b = true)
    (hj : pl.proto.jump b = .leave) (hm : ∀ m ∈ ms, pl.flow.Blocks m b ∧ m ≠ b) : ms = [] := by
  refine List.eq_nil_iff_forall_not_mem.2 fun m hms => ?_
  refine (hm m hms).1.successors_ne_nil (Ne.symm (hm m hms).2) hr ?_
  rw [hpl.successors, hj]
  rfl

theorem Live.ne_rest {b : BlockId} {after : Body} (h : pl.Live T b [] (.rest after :: k)) : False := by
  generalize ht : ([] : Body) = todo at h
  cases h with
  | block hb hk hT hr hm hbusy =>
    cases hb with
    | closing hc =>
      rcases hbusy with hb | hb
      · exact hb (by simpa using ht.symm)
      · exact hb.1 hc
    | leave hc hj =>
      rcases hbusy with hb | ⟨-, c, t, e, hb⟩
      · exact hb (by simpa using ht.symm)
      · rw [hj] at hb
        cases hb
    | always hc hj hr =>
      rcases hbusy with hb | ⟨-, c, t, e, hb⟩
      · simp_all
      · rw [hj] at hb
        cases hb
    | branch => simp at ht
  | loop => cases ht

inductive Abreast (pl : Plan) (T : Placed) : WalkConfig σ → TreeConfig σ → Prop
  | live {b : BlockId} {todo : Body} {k : List Context} (h : pl.Live T b todo k) (s : σ) :
      Abreast pl T (some b, s) ⟨todo, k, s⟩
  | ended (s : σ) : Abreast pl T (none, s) ⟨[], [], s⟩

def Meets (pl : Plan) (m : Meaning σ) (T : Placed) (c : WalkConfig σ) (d : TreeConfig σ) : Prop :=
  ∃ c' d' i j, (pl.proto.machine m m.decide).Steps c [] c' i ∧
    (Node.machine m m.decide).Steps d [] d' j ∧ pl.Abreast T c' d'

theorem Meets.after {c c' : WalkConfig σ} {d d' : TreeConfig σ} {i j : Nat}
    (hc : (pl.proto.machine m m.decide).Steps c [] c' i) (hd : (Node.machine m m.decide).Steps d [] d' j)
    (h : pl.Meets m T c' d') : pl.Meets m T c d := by
  obtain ⟨c₁, d₁, i', j', hc', hd', h⟩ := h
  exact ⟨c₁, d₁, _, _, hc.after hc', hd.after hd', h⟩

theorem Meets.skip {c : WalkConfig σ} {rest : Body} {s : σ}
    (h : pl.Meets m T c ⟨[], .rest rest :: k, s⟩) : pl.Meets m T c ⟨rest, k, s⟩ := by
  obtain ⟨c', d', i, j, hc, hd, h⟩ := h
  generalize he : ([] : List Event) = es at hd
  cases hd with
  | refl =>
    cases h with
    | live hl => exact hl.ne_rest.elim
  | step hg hs =>
    cases hg
    rw [List.nil_append] at he
    subst he
    exact ⟨c', d', i, _, hc, hs, h⟩

theorem Live.meets {b : BlockId} {todo : Body} (h : pl.Live T b todo k) (s : σ) :
    pl.Meets m T (some b, s) ⟨todo, k, s⟩ :=
  ⟨_, _, 0, 0, .refl _, .refl _, .live h s⟩

theorem Behind.ends (h : pl.Behind T [] stop k [] later) (s : σ) :
    ∃ n, (Node.machine m m.decide).Steps ⟨[], k, s⟩ [] ⟨[], [], s⟩ n := by
  generalize hfr : ([] : List Frame) = fr at h
  generalize hms : ([] : List BlockId) = ms at h
  induction h with
  | top => exact ⟨0, .refl _⟩
  | merge => cases hms
  | unmerged _ ih =>
    obtain ⟨n, hn⟩ := ih hfr hms
    exact ⟨1 + n, (Steps.one rfl).after hn⟩
  | loop => cases hfr

theorem Builds.whileDo {l : ShapedLoop} {node : Node} {inner : Placed}
    (hn : pl.Builds fr (.loop l) [node] inner) (hp : pl.PlainLoop l) (hc : (pl.frame l).closing = none) :
    ∃ c body, node = .whileDo c body := by
  unfold PlainLoop at hp
  cases hn with
  | headed hl hh hb =>
    cases hs : l.shape <;> simp only [hs, LoopShape.headed?, Option.some.injEq, Prod.mk.injEq, reduceCtorEq] at hh hp
    obtain ⟨rfl, -⟩ := hh
    exact ⟨_, _, rfl⟩
  | whole hl hw hb =>
    cases hs : l.shape <;> simp only [hs, whole?, frame, Option.some.injEq, reduceCtorEq] at hw hc
    subst hw
    exact ⟨_, _, rfl⟩

section Settle

variable (hpl : pl.Regular) (hT : pl.Layout T) (hends : pl.Returning T)
include hT

theorem Behind.ne_placed (hk : pl.Behind T fr stop k ms later) (hs : (placed ++ later).Sublist T)
    {b : BlockId} (ha : Frame.arrive b fr = .inside) (hb : b ∈ placed.map Prod.fst) {m : BlockId}
    (hm : m ∈ ms) : m ≠ b := by
  rintro rfl
  have hn := (hs.map Prod.fst).nodup hT.nodup
  rw [List.map_append, List.nodup_append] at hn
  exact hn.2.2 _ hb _ (hk.mem_later hm ha) rfl

include hpl

theorem Behind.nil_of_loop {l : ShapedLoop} {node : Node} {inner : Placed}
    (hk : pl.Behind T fr stop k ms later) (hs : (placed ++ later).Sublist T)
    (ha : Frame.arrive l.header fr = .inside) (hn : pl.Builds fr (.loop l) [node] inner)
    (hin : ∀ x ∈ inner, x ∈ placed) (ht : pl.Ready fr ms l.header) : ms = [] := by
  refine List.eq_nil_iff_forall_not_mem.2 fun m hm => ?_
  have hplaced : (l.header, pl.frame l :: fr) ∈ placed := hin _ hn.mem_header
  have hh : (l.header, pl.frame l :: fr) ∈ T := hs.subset (List.mem_append_left _ hplaced)
  have he := hT.enters hpl.toFits hn.loopAt hh ha (hk.settles hm) (ht.blocks m hm)
  exact hk.ne_placed hT hs ha (List.mem_map_of_mem hplaced) hm he

omit hT in
theorem header_meets {F : Frame} {t : BlockId} (hk : pl.Behind T (F :: fr) stop k ms later)
    (ht : pl.Ready (F :: fr) ms t) (hF : F.header = t) (s : σ) : pl.Meets m T (some t, s) ⟨[], k, s⟩ := by
  subst hF
  obtain ⟨hms, hc⟩ := ht.header F (.head _) rfl
  obtain ⟨node, after, k', later', -, hk', -, -, hsteps⟩ := hk.innermost (m := m) (by simp)
  obtain ⟨i, hi⟩ := hsteps hms s
  cases hk' with
  | loop hs' ha' hn' hr' hk'' hT' =>
    obtain ⟨c, body, rfl⟩ := hn'.whileDo (hpl.plain hn'.loopAt) hc
    have hround : (Node.machine m m.decide).Steps ⟨[], .loop (.whileDo c body) after :: k', s⟩ []
      ⟨.whileDo c body :: after, k', s⟩ 1 := .one rfl
    have hlive := Live.loop hs' ha' hn' hr' hk'' hT' ht.reachable
    exact (hlive.meets s).after (.refl _) (hi.after hround)

theorem empty_latch_meets {b : BlockId} (hb : (b, fr) ∈ T) (hc : closing? fr = some b)
    (he : pl.proto.body b = []) (hk : pl.Behind T fr stop k ms later) (hr : pl.flow.isReachable b = true)
    (hm : ∀ m ∈ ms, pl.flow.Blocks m b ∧ m ≠ b) (s : σ) : pl.Meets m T (some b, s) ⟨[], k, s⟩ := by
  obtain rfl := hT.nil_of_closing hpl.toFits hb hr hc hm
  have hfr : fr ≠ [] := by
    rintro rfl
    cases hc
  obtain ⟨node, after, k', later', -, hk', -, -, hsteps⟩ := hk.innermost (m := m) hfr
  obtain ⟨i, hi⟩ := hsteps rfl s
  cases hk' with
  | loop hs' ha' hn' hr' hk'' hT' =>
    have hlive := Live.latch hb hc (.loop hs' ha' hn' hr' hk'' hT') hr he
    exact (hlive.meets s).after (.refl _) hi

include hends

omit hT in
theorem leaving_meets {b : BlockId} (hb : (b, fr) ∈ T) (hj : pl.proto.jump b = .leave)
    (he : pl.proto.body b = []) (hk : pl.Behind T fr stop k ms later) (hr : pl.flow.isReachable b = true)
    (hm : ∀ m ∈ ms, pl.flow.Blocks m b ∧ m ≠ b) (s : σ) : pl.Meets m T (some b, s) ⟨[], k, s⟩ := by
  obtain rfl : ms = [] := hpl.nil_of_leave hr hj hm
  cases fr with
  | nil =>
    obtain ⟨n, hn⟩ := hk.ends (m := m) s
    have hstep : (pl.proto.machine m m.decide).Steps (some b, s) [] (none, s) 1 :=
      .one (by simp [Proto.machine_next_some, he, hj, Jump.follow])
    exact ⟨_, _, _, _, hstep, hn, .ended s⟩
  | cons F fr =>
    obtain ⟨l, r, hl, -⟩ := hends hb hr hj
    simp [hl] at he

theorem settle {t : BlockId} {todo : Body} (hb : pl.Builds fr (.region stop (some t)) todo placed)
    (hk : pl.Behind T fr stop k ms later) (hs : (placed ++ later).Sublist T) (ht : pl.Ready fr ms t)
    (s : σ) : pl.Meets m T (some t, s) ⟨todo, k, s⟩ := by
  -- A merge point or a follow block reached ends a context, an empty block passed ends a placement.
  induction hn : k.length + placed.length + later.length using Nat.strongRecOn
    generalizing fr stop t todo k ms placed later with
  | _ n ih =>
    cases hb with
    | stopped =>
      cases hk with
      | @merge fr stop k ms _ after placed later hm hr hk =>
        have hstep : (Node.machine m m.decide).Steps ⟨[], .rest after :: k, s⟩ [] ⟨after, k, s⟩ 1 := .one rfl
        have hready : pl.Ready fr ms t :=
          ⟨ht.reachable, fun m hm => ht.blocks m (.tail _ hm), fun F hF hh => by cases (ht.header F hF hh).1⟩
        refine (ih _ ?_ hr hk hs hready rfl).after (.refl _) hstep
        simp only [List.length_cons, List.length_append, List.length_nil] at hn ⊢
        omega
    | header hne ha =>
      obtain ⟨F, outer, rfl, hF⟩ := Frame.arrive_header ha
      exact header_meets hpl hk ht hF s
    | follow hne ha =>
      obtain ⟨F, outer, rfl, hF⟩ := Frame.arrive_follow ha
      obtain ⟨node, after, k', later', he, hk', hl', hlen, -⟩ := hk.innermost (m := m) (by simp)
      cases hk' with
      | @loop _ stop' _ l _ _ inner placed' later' hs' ha' hn' hr' hk'' hT' =>
        have hstep : (Node.machine m m.decide).Steps ⟨[.brk], k, s⟩ [] ⟨after, k', s⟩ 1 :=
          .one (by simp [Node.machine, Node.enter, he])
        have hw : l.shape.follow? = some t := hF
        rw [hw] at hr'
        have hready : pl.Ready outer [] t :=
          ⟨ht.reachable, by simp, fun F hF hh => ⟨rfl, (ht.header F (.tail _ hF) hh).2⟩⟩
        refine (ih _ ?_ hr' hk'' ((List.sublist_append_right _ _).trans hT') hready rfl).after (.refl _) hstep
        have := hl'.length_le
        simp only [List.length_append] at this hn ⊢
        omega
    | loop hne ha hn' hr' =>
      obtain rfl := hk.nil_of_loop hpl hT hs ha hn' (fun _ hx => List.mem_append_left _ hx) ht
      rw [List.append_assoc] at hs
      exact (Live.loop hne ha hn' hr' hk hs ht.reachable).meets s
    | block hne ha hl hb =>
      have hm : ∀ m ∈ ms, pl.flow.Blocks m t ∧ m ≠ t := fun m hm =>
        ⟨ht.blocks m hm, hk.ne_placed hT hs ha (List.mem_map_of_mem hb.mem_placed) hm⟩
      have hin : (t, fr) ∈ T := hs.subset (List.mem_append_left _ hb.mem_placed)
      rcases Decidable.em (pl.proto.body t = []) with he | he
      · cases hb with
        | closing hc =>
          rw [he]
          exact empty_latch_meets hpl hT hin hc he hk ht.reachable hm s
        | leave hc hj =>
          rw [he]
          exact leaving_meets hpl hends hin hj he hk ht.reachable hm s
        | @always _ _ _ u rest placed hc hj hr =>
          have hstep : (pl.proto.machine m m.decide).Steps (some t, s) [] (some u, s) 1 :=
            .one (by simp [Proto.machine_next_some, he, hj, Jump.follow])
          have hready : pl.Ready fr ms u := hT.ready hpl.toFits hin ht.reachable hc
            (by simp [hj, Jump.targets]) hm
          rw [he]
          refine (ih _ ?_ hr hk ((List.sublist_cons_self _ _).trans hs) hready rfl).after hstep (.refl _)
          simp only [List.length_cons] at hn ⊢
          omega
        | branch hc hj h1 h2 h3 =>
          exact (Live.block (.branch hc hj h1 h2 h3) hk hs ht.reachable hm (.inr ⟨hc, _, _, _, hj⟩)).meets s
      · exact (Live.block hb hk hs ht.reachable hm (.inl he)).meets s

end Settle

def Advances (pl : Plan) (m : Meaning σ) (T : Placed) (c : WalkConfig σ) (d : TreeConfig σ) (n : Nat) :
    Prop :=
  ∃ es c' d' i j, (pl.proto.machine m m.decide).Steps c es c' i ∧
    (Node.machine m m.decide).Steps d es d' j ∧ 0 < i ∧ n ≤ j ∧
    ((pl.proto.machine m m.decide).next c' = none ∧ (Node.machine m m.decide).next d' = none ∧
      some c'.2 = d'.final ∨ pl.Meets m T c' d')

theorem Advances.mono {c : WalkConfig σ} {d : TreeConfig σ} {n n' : Nat} (h : pl.Advances m T c d n)
    (hn : n' ≤ n) : pl.Advances m T c d n' := by
  obtain ⟨es, c', e, i, k, hc, he, hi, hk, h⟩ := h
  exact ⟨es, c', e, i, k, hc, he, hi, Nat.le_trans hn hk, h⟩

theorem Advances.after {c : WalkConfig σ} {d d' : TreeConfig σ} {n j : Nat}
    (hd : (Node.machine m m.decide).Steps d [] d' j) (h : pl.Advances m T c d' n) :
    pl.Advances m T c d (n + j) := by
  obtain ⟨es, c', e, i, k, hc, he, hi, hk, h⟩ := h
  exact ⟨es, c', e, i, _, hc, hd.after he, hi, by omega, h⟩

section Step

variable (hpl : pl.Regular) (hT : pl.Layout T) (hends : pl.Returning T)
include hpl hT hends

theorem always_advances {b t : BlockId} {rest : Body} (hb : (b, fr) ∈ T) (hc : closing? fr ≠ some b)
    (hj : pl.proto.jump b = .always t) (hrest : pl.Builds fr (.region stop (some t)) rest placed)
    (hk : pl.Behind T fr stop k ms later) (hs : (placed ++ later).Sublist T)
    (hr : pl.flow.isReachable b = true) (hm : ∀ m ∈ ms, pl.flow.Blocks m b ∧ m ≠ b) (s : σ) :
    pl.Advances m T (some b, s) ⟨(pl.proto.body b).map .stmt ++ rest, k, s⟩ (pl.proto.body b).length := by
  have ht : t ∈ (pl.proto.jump b).targets := by simp [hj, Jump.targets]
  have hready := hT.ready hpl.toFits hb hr hc ht hm
  have hp : (pl.proto.machine m m.decide).Steps (some b, s) ((pl.proto.body b).map .stmt)
      (some t, m.runAll (pl.proto.body b) s) 1 :=
    .one (by simp [Proto.machine_next_some, hj, Jump.follow])
  have hn := Node.steps_stmts (m := m) (hpl.undisturbed (List.ne_nil_of_mem ht)) rest k s
  exact ⟨_, _, _, _, _, hp, hn, Nat.one_pos, Nat.le_refl _, .inr (settle hpl hT hends hrest hk hs hready _)⟩

omit hT in
theorem leave_advances {b : BlockId} (hb : (b, fr) ∈ T) (hj : pl.proto.jump b = .leave)
    (hk : pl.Behind T fr stop k ms later) (hr : pl.flow.isReachable b = true)
    (hm : ∀ m ∈ ms, pl.flow.Blocks m b ∧ m ≠ b) (s : σ) :
    pl.Advances m T (some b, s) ⟨(pl.proto.body b).map .stmt, k, s⟩ (pl.proto.body b).length := by
  have hp : (pl.proto.machine m m.decide).Steps (some b, s) ((pl.proto.body b).map .stmt)
      (none, m.runAll (pl.proto.body b) s) 1 :=
    .one (by simp [Proto.machine_next_some, hj, Jump.follow])
  -- A block that ends without a return stands in no loop, so nothing is left of the tree behind it.
  rcases hpl.returns_or_falls b with ⟨l, u, hl, hu, hlast⟩ | hfalls
  · have hn := Node.steps_stmts (m := m) hlast [.stmt u] k s
    have hret : (Node.machine m m.decide).Steps ⟨[.stmt u], k, m.runAll l s⟩ [.stmt u]
        ⟨[], [], m.run u (m.runAll l s)⟩ 1 := .one (by simp [Node.machine, Node.enter, hu])
    have hrun : m.runAll (pl.proto.body b) s = m.run u (m.runAll l s) := by
      rw [hl, m.runAll_append]
      rfl
    have hd := hn.trans hret
    rw [hrun, hl, List.map_append, List.map_singleton] at hp
    rw [hl, List.map_append, List.map_singleton, List.length_append]
    exact ⟨_, _, _, _, _, hp, hd, Nat.one_pos, Nat.le_refl _, .inl ⟨rfl, rfl, rfl⟩⟩
  · cases fr with
    | nil =>
      obtain rfl : ms = [] := hpl.nil_of_leave hr hj hm
      have hn := Node.steps_stmts (m := m) hfalls [] k s
      rw [List.append_nil] at hn
      obtain ⟨i, hi⟩ := hk.ends (m := m) (m.runAll (pl.proto.body b) s)
      have hd := hn.trans hi
      rw [List.append_nil] at hd
      exact ⟨_, _, _, _, _, hp, hd, Nat.one_pos, Nat.le_add_right _ _, .inl ⟨rfl, rfl, rfl⟩⟩
    | cons F fr =>
      obtain ⟨l, u, hl, hu⟩ := hends hb hr hj
      have := hfalls u (by simp [hl])
      rw [hu] at this
      cases this

omit hpl hends in
theorem behind_arm (hpl : pl.Fits) {b : BlockId} {rest : Body} (hb : (b, fr) ∈ T)
    (hrest : pl.Builds fr (.region stop (pl.mergePoint? fr b)) rest placed)
    (hk : pl.Behind T fr stop k ms later) (hs : placed ⊆ T)
    (hm : ∀ m ∈ ms, pl.flow.Blocks m b ∧ m ≠ b) :
    ∃ ns, pl.Behind T fr (pl.mergePoint? fr b) (.rest rest :: k) ns (placed ++ later) ∧
      ∀ m ∈ ns, pl.flow.Blocks m b ∧ m ≠ b := by
  cases hp : pl.mergePoint? fr b with
  | none =>
    rw [hp] at hrest
    cases hrest
    exact ⟨ms, .unmerged hk, hm⟩
  | some a =>
    rw [hp] at hrest
    have hsettles := hrest.settles hs (hT.placed hb).nested hk.settles_stop rfl
    refine ⟨a :: ms, .merge hsettles hrest hk, fun m hms => ?_⟩
    rcases List.mem_cons.1 hms with rfl | hms
    · refine hpl.rooted.blocks_of_mergePoint ?_
      rw [← hpl.merges]
      exact (Option.filter_eq_some_iff.1 hp).1
    · exact hm m hms

theorem branch_advances {b t e : BlockId} {c : Expr} {onTrue onFalse rest : Body}
    {first second placed : Placed} (hb : (b, fr) ∈ T) (hc : closing? fr ≠ some b)
    (hj : pl.proto.jump b = .branch c t e)
    (ht : pl.Builds fr (.region (pl.mergePoint? fr b) (some t)) onTrue first)
    (he : pl.Builds fr (.region (pl.mergePoint? fr b) (some e)) onFalse second)
    (hrest : pl.Builds fr (.region stop (pl.mergePoint? fr b)) rest placed)
    (hk : pl.Behind T fr stop k ms later) (hs : (first ++ (second ++ placed) ++ later).Sublist T)
    (hr : pl.flow.isReachable b = true) (hm : ∀ m ∈ ms, pl.flow.Blocks m b ∧ m ≠ b) (s : σ) :
    pl.Advances m T (some b, s)
      ⟨(pl.proto.body b).map .stmt ++ conditional c onTrue onFalse :: rest, k, s⟩
      ((pl.proto.body b).length + 1) := by
  have hs1 : (first ++ (placed ++ later)).Sublist T := by
    refine List.Sublist.trans ?_ hs
    simp only [List.append_assoc]
    exact (List.sublist_append_right second _).append_left first
  have hs2 : (second ++ (placed ++ later)).Sublist T := by
    refine List.Sublist.trans ?_ hs
    simp only [List.append_assoc]
    exact List.sublist_append_right first _
  have hplaced : placed ⊆ T := fun x hx =>
    hs1.subset (List.mem_append_right _ (List.mem_append_left _ hx))
  obtain ⟨ns, hbehind, hns⟩ := behind_arm hT hpl.toFits hb hrest hk hplaced hm
  let s' := m.runAll (pl.proto.body b) s
  let v := m.decide c s'
  have hmem : ∀ x, x = t ∨ x = e → x ∈ (pl.proto.jump b).targets := by
    intro x hx
    simpa [hj, Jump.targets] using hx
  have harm : pl.Meets m T (some (if v.holds then t else e), v.state)
      ⟨if v.holds then onTrue else onFalse, .rest rest :: k, v.state⟩ := by
    cases v.holds
    · exact settle hpl hT hends he hbehind hs2 (hT.ready hpl.toFits hb hr hc (hmem e (.inr rfl)) hns) v.state
    · exact settle hpl hT hends ht hbehind hs1 (hT.ready hpl.toFits hb hr hc (hmem t (.inl rfl)) hns) v.state
  have hp : (pl.proto.machine m m.decide).Steps (some b, s) ((pl.proto.body b).map .stmt ++ v.events)
      (some (if v.holds then t else e), v.state) 1 :=
    .one (by simp [Proto.machine_next_some, hj, Jump.follow, v, s'])
  have hn := Node.steps_stmts (m := m) (hpl.undisturbed (List.ne_nil_of_mem (hmem t (.inl rfl))))
    (conditional c onTrue onFalse :: rest) k s
  obtain ⟨d, hd, hcases⟩ := Node.next_conditional (m := m) c onTrue onFalse rest k s'
  refine ⟨_, _, d, _, _, hp, hn.trans (.one hd), Nat.one_pos, Nat.le_refl _, .inr ?_⟩
  -- The tree steps over an empty arm, which the blocks have only entered.
  rcases hcases with rfl | ⟨hnil, rfl⟩
  · exact harm
  · rw [hnil] at harm
    exact harm.skip

omit hpl hends in
theorem ready_behind (hpl : pl.Fits) {l : ShapedLoop} {b w : BlockId} (hb : (b, pl.frame l :: fr) ∈ T)
    (hl : pl.loopAt? l.header = some l) (hh : (l.header, pl.frame l :: fr) ∈ T)
    (hs : l.shape = .posttest b w) (hr : pl.flow.isReachable b = true) : pl.Ready fr [] w := by
  obtain ⟨hw, hm⟩ := (hpl.loops hl).closing_targets hs
  refine ⟨?_, by simp, fun F hF hF' => ⟨rfl, ?_⟩⟩
  · exact hpl.rooted.isReachable_successor hr (by rw [hpl.successors]; exact hw)
  · cases hc : F.closing with
    | none => rfl
    | some c =>
      have hback := hT.backEdge hpl hb hr (.tail _ hF) (hF' ▸ hw)
      obtain ⟨l', outer, rfl, hl', -, -⟩ := (hT.placed hb).nested.suffix (.tail _ hF)
      obtain ⟨w', hs'⟩ := closing_shape hc
      obtain rfl : b = c := ((hpl.loops hl').closing hs').1 b hback
      have hne : w ≠ l.header := by
        rintro rfl
        exact (hpl.loops hl).follow (by rw [hs]; rfl) ((hpl.loops hl).header_mem hpl)
      have hww : w' = l.header := by
        have hlh : l'.header = w := hF'
        obtain ⟨e, hj | hj⟩ := ((hpl.loops hl').closing hs').2
        all_goals
          simp only [hj, Jump.targets, List.mem_cons, List.not_mem_nil, or_false, hlh] at hm
          rcases hm with hm | hm
          · first | exact hm.symm | exact absurd hm.symm hne
          · first | exact hm.symm | exact absurd hm.symm hne
      refine absurd ?_ ((hT.placed hh).follow _ (.tail _ hF))
      simp [frame, hs', LoopShape.follow?, hww]

theorem latch_meets {F : Frame} {b : BlockId} {node : Node} {after : Body} (hb : (b, F :: fr) ∈ T)
    (hc : F.closing = some b) (hk : pl.Behind T (F :: fr) none (.loop node after :: k) [] later)
    (hr : pl.flow.isReachable b = true) (es : List Event) (s : σ) :
    ∃ fs c d, (pl.proto.jump b).follow m.decide es s = (es ++ fs, c) ∧
      (Node.machine m m.decide).next ⟨[], .loop node after :: k, s⟩ = some (fs, d) ∧
      pl.Meets m T c d := by
  cases hk with
  | @loop _ stop _ l _ _ inner outer later hs ha hn ho hk hT' =>
    have hl := hn.loopAt
    have hh : (l.header, pl.frame l :: fr) ∈ T := hT'.subset (List.mem_append_left _ hn.mem_header)
    obtain ⟨w, hshape⟩ := closing_shape hc
    have hfollow : l.shape.follow? = some w := by rw [hshape]; rfl
    have hready := ready_behind hT hpl.toFits hb hl hh hshape hr
    have hne : w ≠ l.header := by
      rintro rfl
      exact (hpl.loops hl).follow hfollow ((hpl.loops hl).header_mem hpl.toFits)
    have leaves (s : σ) : pl.Meets m T (some w, s) ⟨after, k, s⟩ := by
      rw [hfollow] at ho
      exact settle hpl hT hends ho hk ((List.sublist_append_right _ _).trans hT') hready s
    have stays (s : σ) : pl.Meets m T (some l.header, s) ⟨node :: after, k, s⟩ := by
      refine (Live.loop hs ha hn ho hk hT' ?_).meets s
      obtain ⟨latches, hloop⟩ := (hpl.loops hl).isLoop
      exact hloop.header_reachable hpl.rooted
    cases hn with
    | headed _ hhd _ =>
      rw [hshape] at hhd
      cases hhd
    | @whole _ _ wrap body _ _ hw hbody =>
      -- The test of the tree asks when to leave, so it is negated where the block goes back on true.
      obtain ⟨c, hj | hj⟩ := ((hpl.loops hl).closing hshape).2
      · have hwrap : wrap = fun body => .repeatUntil body c.negate := by
          simpa [whole?, hshape, untilTest?, hj, eq_comm] using hw
        subst hwrap
        refine ⟨(m.decide c.negate s).events, _, _, by rw [hj, Meaning.decide_negate]; rfl, rfl, ?_⟩
        simp only [Meaning.decide_negate, Verdict.negated_holds, Verdict.negated_state]
        cases (m.decide c s).holds
        · exact leaves _
        · exact stays _
      · have hwrap : wrap = fun body => .repeatUntil body c := by
          simpa [whole?, hshape, untilTest?, hj, hne, eq_comm] using hw
        subst hwrap
        refine ⟨_, _, _, by rw [hj]; rfl, rfl, ?_⟩
        cases (m.decide c s).holds
        · exact stays _
        · exact leaves _

theorem closing_advances {b : BlockId} (hb : (b, fr) ∈ T) (hc : closing? fr = some b)
    (hk : pl.Behind T fr stop k ms later) (hr : pl.flow.isReachable b = true)
    (hm : ∀ m ∈ ms, pl.flow.Blocks m b ∧ m ≠ b) (s : σ) :
    pl.Advances m T (some b, s) ⟨(pl.proto.body b).map .stmt, k, s⟩ ((pl.proto.body b).length + 1) := by
  obtain rfl := hT.nil_of_closing hpl.toFits hb hr hc hm
  cases hfr : (hT.placed hb).nested with
  | nil => cases hc
  | @cons l fr hl _ _ _ =>
    obtain ⟨w, hs⟩ := closing_shape hc
    have hne := List.ne_nil_of_mem ((hpl.loops hl).closing_targets hs).1
    obtain ⟨node, after, k', later', -, hk', -, -, hsteps⟩ := hk.innermost (m := m) (by simp)
    obtain ⟨i, hi⟩ := hsteps rfl (m.runAll (pl.proto.body b) s)
    obtain ⟨fs, c, d, hp, hd, hmeets⟩ := latch_meets hpl hT hends hb hc hk' hr ((pl.proto.body b).map .stmt)
      (m.runAll (pl.proto.body b) s)
    have hn := Node.steps_stmts (m := m) (hpl.undisturbed hne) [] k s
    rw [List.append_nil] at hn
    have hstep := hn.trans (hi.after (.one hd))
    refine ⟨_, c, d, 1, _, .one ?_, hstep, Nat.one_pos, by omega, .inr hmeets⟩
    rw [Proto.machine_next_some, hp]

theorem place_advances {b : BlockId} {todo : Body} (hb : pl.Builds fr (.place stop b) todo placed)
    (hk : pl.Behind T fr stop k ms later) (hs : (placed ++ later).Sublist T)
    (hr : pl.flow.isReachable b = true) (hm : ∀ m ∈ ms, pl.flow.Blocks m b ∧ m ≠ b) (s : σ) :
    pl.Advances m T (some b, s) ⟨todo, k, s⟩ (pl.proto.body b).length := by
  have hin : (b, fr) ∈ T := hs.subset (List.mem_append_left _ hb.mem_placed)
  cases hb with
  | closing hc => exact (closing_advances hpl hT hends hin hc hk hr hm s).mono (Nat.le_succ _)
  | leave hc hj => exact leave_advances hpl hends hin hj hk hr hm s
  | always hc hj hrest =>
    exact always_advances hpl hT hends hin hc hj hrest hk ((List.sublist_cons_self _ _).trans hs) hr hm s
  | branch hc hj ht he hrest =>
    exact (branch_advances hpl hT hends hin hc hj ht he hrest hk ((List.sublist_cons_self _ _).trans hs)
      hr hm s).mono (Nat.le_succ _)

theorem pretest_advances {l : ShapedLoop} {c : Expr} {entry w : BlockId} {body after : Body}
    {inner outer : Placed} (hshape : l.shape = .pretest c entry w) (hs : stop ≠ some l.header)
    (ha : Frame.arrive l.header fr = .inside)
    (hb : pl.Builds (pl.frame l :: fr) (.region none (some entry)) body inner)
    (hl : pl.loopAt? l.header = some l) (ho : pl.Builds fr (.region stop (some w)) after outer)
    (hk : pl.Behind T fr stop k [] later)
    (hT' : ((l.header, pl.frame l :: fr) :: (inner ++ (outer ++ later))).Sublist T)
    (hr : pl.flow.isReachable l.header = true) (s : σ) :
    pl.Advances m T (some l.header, s) ⟨.whileDo c body :: after, k, s⟩ 1 := by
  have hh : (l.header, pl.frame l :: fr) ∈ T := hT'.subset (.head _)
  have hfollow : l.shape.follow? = some w := by rw [hshape]; rfl
  have hbehind : pl.Behind T (pl.frame l :: fr) none (.loop (.whileDo c body) after :: k) [] (outer ++ later) :=
    .loop hs ha (.headed hl (by rw [hshape]; rfl) hb) (by rw [hfollow]; exact ho) hk hT'
  have hclosing : closing? (pl.frame l :: fr) ≠ some l.header := by
    intro hc
    obtain ⟨w', hw'⟩ := closing_shape hc
    rw [hshape] at hw'
    cases hw'
  have hsub := (List.sublist_cons_self _ _).trans hT'
  have stays (hmem : entry ∈ (pl.proto.jump l.header).targets) (s : σ) :
      pl.Meets m T (some entry, s) ⟨body, .loop (.whileDo c body) after :: k, s⟩ :=
    settle hpl hT hends hb hbehind hsub (hT.ready hpl.toFits hh hr hclosing hmem (by simp)) s
  have leaves (hmem : w ∈ (pl.proto.jump l.header).targets) (s : σ) :
      pl.Meets m T (some w, s) ⟨after, k, s⟩ := by
    have hready : pl.Ready _ [] w := hT.ready hpl.toFits hh hr hclosing hmem (by simp)
    exact settle hpl hT hends ho hk ((List.sublist_append_right _ _).trans hsub)
      ⟨hready.reachable, hready.blocks, fun F hF => hready.header F (.tail _ hF)⟩ s
  have hplain := hpl.plain hl
  simp only [PlainLoop, hshape] at hplain
  obtain ⟨he, hplain⟩ := hplain
  have hmem : entry ∈ (pl.proto.jump l.header).targets ∧ w ∈ (pl.proto.jump l.header).targets := by
    obtain hj | ⟨e, -, hj⟩ := hplain <;> simp [hj, Jump.targets]
  -- Whichever way round the block branches, it goes into the body where the test of the loop holds.
  have hp : (pl.proto.machine m m.decide).next (some l.header, s) = some ((m.decide c s).events,
      some (if (m.decide c s).holds then entry else w), (m.decide c s).state) := by
    obtain hj | ⟨e, rfl, hj⟩ := hplain
    · simp [Proto.machine_next_some, he, hj, Jump.follow]
    · simp only [Proto.machine_next_some, he, hj, Jump.follow, m.decide_negate, m.runAll_nil, List.map_nil,
        List.nil_append, Verdict.negated_events, Verdict.negated_holds, Verdict.negated_state]
      cases (m.decide e s).holds <;> rfl
  refine ⟨_, _, _, 1, 1, .one hp, .one rfl, Nat.one_pos, Nat.le_refl _, .inr ?_⟩
  cases (m.decide c s).holds
  · exact leaves hmem.2 _
  · exact stays hmem.1 _

theorem Live.advances {b : BlockId} {todo : Body} (h : pl.Live T b todo k) (s : σ) :
    pl.Advances m T (some b, s) ⟨todo, k, s⟩ 1 := by
  cases h with
  | block hb hk hs hr hm hbusy =>
    rcases hbusy with hne | ⟨hc, c, t, e, hj⟩
    · exact (place_advances hpl hT hends hb hk hs hr hm s).mono (List.length_pos_iff.2 hne)
    · have hin := hs.subset (List.mem_append_left _ hb.mem_placed)
      cases hb with
      | closing hc' => exact absurd hc' hc
      | leave _ hj' => rw [hj] at hj'; cases hj'
      | always _ hj' => rw [hj] at hj'; cases hj'
      | branch _ hj' ht he hrest =>
        exact (branch_advances hpl hT hends hin hc hj' ht he hrest hk ((List.sublist_cons_self _ _).trans hs)
          hr hm s).mono (Nat.le_add_left 1 _)
  | @loop fr stop l node after _ inner outer later hs ha hn ho hk hT' hr =>
    have hbehind := Behind.loop hs ha hn ho hk hT'
    have hplain := hpl.plain hn.loopAt
    cases hn with
    | headed hl hh hb =>
      cases hshape : l.shape with
      | pretest c entry w =>
        rw [hshape] at hh ho
        cases hh
        exact pretest_advances hpl hT hends hshape hs ha hb hl ho hk hT' hr s
      | posttest => rw [hshape] at hh; cases hh
      | endless => rw [hshape] at hh; cases hh
      | numeric => simp [PlainLoop, hshape] at hplain
      | generic => simp [PlainLoop, hshape] at hplain
    | @whole _ _ wrap body _ hl hw hb =>
      have hin := place_advances (m := m) hpl hT hends hb hbehind hT' hr (by simp) s
      have hstep : (Node.machine m m.decide).Steps ⟨wrap body :: after, k, s⟩ []
          ⟨body, .loop (wrap body) after :: k, s⟩ 1 := by
        cases hshape : l.shape <;> simp only [whole?, hshape, Option.map_eq_some_iff, Option.some.injEq, reduceCtorEq] at hw
        · obtain ⟨c, -, rfl⟩ := hw
          exact .one rfl
        · subst hw
          exact .one rfl
      exact (hin.after hstep).mono (Nat.le_add_left 1 _)
  | @latch F fr _ node after _ later hb hc hk hr he =>
    obtain ⟨fs, c, d, hp, hd, hmeets⟩ := latch_meets hpl hT hends hb hc hk hr [] s
    refine ⟨fs, c, d, 1, 1, .one ?_, .one hd, Nat.one_pos, Nat.le_refl _, .inr hmeets⟩
    simp [Proto.machine_next_some, he, hp]

theorem Meets.sameRuns {c : WalkConfig σ} {d : TreeConfig σ} (h : pl.Meets m T c d) :
    SameRuns (pl.proto.machine m m.decide) (Node.machine m m.decide) (fun c => some c.2) TreeConfig.final
      c d := by
  refine SameRuns.of_matches (R := pl.Meets m T) ?_ h
  rintro c d ⟨c', d', i, j, hc, hd, h⟩
  cases h with
  | live hl s =>
    obtain ⟨es, c', d', i', j', hc', hd', hi, hj, h⟩ := hl.advances hpl hT hends s
    exact ⟨es, c', d', _, _, hc.after hc', hd.after hd', h.imp_right fun h => ⟨by omega, by omega, h⟩⟩
  | ended s => exact ⟨[], _, _, _, _, hc, hd, .inl ⟨rfl, rfl, rfl⟩⟩

end Step

theorem Regular.sameRuns (hpl : pl.Regular) {body : Body} (h : pl.build = .ok body)
    (hends : ∀ T, pl.Layout T → pl.Returning T) (m : Meaning σ) (s : σ) :
    SameRuns (pl.proto.machine m m.decide) (Node.machine m m.decide) (fun c => some c.2) TreeConfig.final
      (some 0, s) ⟨body, [], s⟩ := by
  obtain ⟨T, hb, hT, -⟩ := hpl.exists_layout h
  have h0 : pl.Ready [] [] 0 := ⟨hpl.rooted.isReachable_iff.2 .refl, by simp, by simp⟩
  exact (settle hpl hT (hends T hT) hb .top (by simp) h0 s).sameRuns hpl hT (hends T hT)

theorem Sound.sameRuns (hpl : pl.Sound) {body : Body} (h : pl.build = .ok body) (m : Meaning σ) (s : σ) :
    SameRuns (pl.proto.machine m m.decide) (Node.machine m m.decide) (fun c => some c.2) TreeConfig.final
      (some 0, s) ⟨body, [], s⟩ := by
  refine hpl.toRegular.sameRuns h (fun T _ => ?_) m s
  intro b F fr _ hr hj
  exact hpl.ends hr hj

end Plan

end LuaLift
