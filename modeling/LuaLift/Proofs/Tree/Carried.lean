import LuaLift.Proofs.Tree.Declarable
import LuaLift.Proofs.Tree.Scanned

/-!
Declared trees read what the trees read that they come from. A declaration in a loop is harmless where
the scan finds no early read behind it, and one outside all loops in any case. What is left over are
places the search for a place gives up at: in front of a loop that stands in another one.
-/

namespace LuaLift

namespace Node

open Runs Status

variable {V : Type} {v : LocalId}

theorem within_of_mem_occurAt {path : Path} {i : Nat} {vs : List LocalId} :
    ∀ o ∈ occurAt path i vs, o.position.Within path i := by
  intro o ho
  obtain ⟨w, -, rfl⟩ := List.mem_map.1 ho
  exact Position.within_self path i

theorem within_of_mem_occurrences :
    (∀ n path i, ∀ o ∈ occurrencesIn path i n, o.position.Within path i) ∧
      ∀ b path i, ∀ o ∈ occurrencesFrom path i b, ∃ j, i ≤ j ∧ o.position.Within path j := by
  refine tree_induct (fun n ih path i => ?_) (fun path i => by simp [occurrencesFrom])
    fun n rest ihn ih path i => ?_
  · have inside {b : Body} (hb : b ∈ n.bodies) (w : Nat) :
        ∀ o ∈ occurrencesFrom (path ++ [(i, w)]) 0 b, o.position.Within path i := by
      intro o ho
      obtain ⟨j, -, hj⟩ := ih b hb _ _ o ho
      exact Position.within_of_prefix hj.1
    have test (b : Body) (vs : List LocalId) :
        ∀ o ∈ occurAt (path ++ [(i, 0)]) b.length vs, o.position.Within path i :=
      fun o ho => Position.within_of_prefix (within_of_mem_occurAt o ho).1
    cases n with
    | stmt s => exact within_of_mem_occurAt
    | brk => simp [occurrencesIn]
    | scope b => exact inside (.head _) 0
    | ifElse c a b =>
      simp only [occurrencesIn, List.forall_mem_append]
      exact ⟨⟨within_of_mem_occurAt, inside (.head _) 0⟩, inside (.tail _ (.head _)) 1⟩
    | repeatUntil b c =>
      simp only [occurrencesIn, List.forall_mem_append]
      exact ⟨inside (.head _) 0, test b c.vars⟩
    | _ =>
      simp only [occurrencesIn, List.forall_mem_append]
      exact ⟨within_of_mem_occurAt, inside (.head _) 0⟩
  · simp only [occurrencesFrom, List.forall_mem_append]
    refine ⟨fun o ho => ⟨i, Nat.le_refl i, ihn path i o ho⟩, fun o ho => ?_⟩
    obtain ⟨j, hj, hw⟩ := ih path (i + 1) o ho
    exact ⟨j, Nat.le_of_succ_le hj, hw⟩

theorem mem_occurrencesFrom {b : Body} {path : Path} {j : Nat} {n : Node} (h : b[j]? = some n) :
    ∀ o ∈ occurrencesIn path j n, o ∈ occurrencesFrom path 0 b := by
  suffices ∀ i, ∀ o ∈ occurrencesIn path (i + j) n, o ∈ occurrencesFrom path i b by
    simpa using this 0
  induction b generalizing j with
  | nil => simp at h
  | cons m rest ih =>
    intro i o ho
    cases j with
    | zero =>
      obtain rfl : m = n := by simpa using h
      exact List.mem_append_left _ ho
    | succ j => exact List.mem_append_right _ (ih (by simpa using h) (i + 1) o (by rwa [Nat.add_right_comm]))

theorem nodesOf_bodies_subset {b c : Body} {n : Node} (hn : n ∈ b) (hc : c ∈ n.bodies) :
    nodesOf c ⊆ nodesOf b := by
  intro m hm
  refine mem_nodesOf.2 ⟨n, hn, ?_⟩
  rw [nodes_eq]
  exact .tail _ (List.mem_flatMap.2 ⟨c, hc, hm⟩)

theorem nodesOf_bodyAt?_subset {root b : Body} {path : Path} (h : bodyAt? root path = some b) :
    nodesOf b ⊆ nodesOf root := by
  induction path generalizing root with
  | nil =>
    cases h
    exact List.Subset.refl _
  | cons step path ih =>
    obtain ⟨i, w⟩ := step
    rw [bodyAt?] at h
    split at h
    · cases h
    · next n hn =>
      split at h
      · cases h
      · next c hc =>
        exact List.Subset.trans (ih h)
          (nodesOf_bodies_subset (List.mem_of_getElem? hn) (List.mem_of_getElem? hc))

theorem Undeclared.mono {a b : Body} (h : Undeclared b) (hs : nodesOf a ⊆ nodesOf b) : Undeclared a :=
  fun s hm => h s (hs hm)

theorem Unbroken.mono {a b : Body} (h : Unbroken b) (hs : nodesOf a ⊆ nodesOf b) : Unbroken a :=
  fun x c hm => h x c (hs hm)

abbrev CoversAll (v : LocalId) (q : Position) (os : List Occurrence) : Prop := ∀ o ∈ os, o.var = v → q.Covers o.position

variable {placed : List Placement} {q : Position} {path : Path} {i : Nat}

theorem absent_of_ne {n : Node} (ho : CoversAll v q (occurrencesIn path i n)) (hp : path <+: q.path)
    (h : i < q.indexBelow path.length ∨ q.path ≠ path ∧ q.indexBelow path.length ≠ i) :
    (⟨.var, v⟩ : Cell) ∉ n.nodes.flatMap cells := by
  intro hc
  obtain ⟨o, hmem, hv⟩ := exists_occurrence.1 n path i hc
  have hcover := ho o hmem hv
  have hwithin := within_of_mem_occurrences.1 n path i o hmem
  rcases h with h | ⟨hne, h⟩
  · exact absurd (hcover.indexBelow_le hp hwithin) (Nat.not_le.2 h)
  · exact h (hcover.within hp hne hwithin).2

theorem absent_of_behind {b : Body} (ho : CoversAll v q (occurrencesFrom path i b)) (hp : path <+: q.path)
    (hne : q.path ≠ path) (h : q.indexBelow path.length < i) :
    (⟨.var, v⟩ : Cell) ∉ (nodesOf b).flatMap cells := by
  intro hc
  obtain ⟨o, hmem, hv⟩ := exists_occurrence.2 b path i hc
  obtain ⟨j, hj, hwithin⟩ := within_of_mem_occurrences.2 b path i o hmem
  have := ((ho o hmem hv).within hp hne hwithin).2
  omega

theorem not_mem_of_inside {vs : List LocalId} (ho : CoversAll v q (occurAt path i vs))
    (hlt : path.length < q.path.length) : v ∉ vs := by
  intro hv
  have := (ho _ (mem_occurAt hv) rfl).1.length_le
  exact absurd this (Nat.not_le.2 hlt)

section Quiet

variable {P T B : Status → Prop} {l b : Body}

theorem keeps_of_quiet (hr : (runsOf l : Runs V).undeclared = runsOf b)
    (hd : v ∉ (nodesOf l).flatMap opened) (hc : (⟨.var, v⟩ : Cell) ∉ (nodesOf b).flatMap cells) :
    Keeps v P (runsOf l : Runs V) P P := by
  refine Keeps.of_undeclared ?_ ((declaredVars_of_runs l).mono fun a ha => mt (ha v) hd)
  rw [hr]
  exact keeps_of_absent ((cells_of_runs b).mono fun a ha => mt (ha _) hc)

theorem keeps_does_of_absent {a : Action V} (h : (⟨.var, v⟩ : Cell) ∉ a.cells) : Keeps v P (does a) P B := by
  intro l e hl s hs
  obtain ⟨s', hw, ht, -⟩ := keeps_of_absent (P := P) (All.does h) l e hl s hs
  exact ⟨s', hw, ht, fun he => by rw [hl.2] at he; cases he⟩

theorem keeps_declaration {vs : List LocalId} (h : v ∉ vs) : Keeps v P (runsOf (declaration vs) : Runs V) P P :=
  keeps_of_quiet ((undeclared_declaration vs).trans runsOf_nil.symm)
    (by rwa [opened_nodesOf_declaration]) List.not_mem_nil

theorem ends_declaration {vs : List LocalId} {k : List (Action V)} {e : Ending} (h : runsOf (declaration vs) k e) :
    e = .through ∧ k.filterMap Action.undeclared = [] := by
  have hrun : (runsOf (declaration vs) : Runs V).undeclared (k.filterMap Action.undeclared) e := ⟨k, h, rfl⟩
  rw [undeclared_declaration] at hrun
  exact hrun.symm

theorem undeclared_runs_due {n : Node} (hn : Undeclared [n]) :
    (runsOf (if (dueAt placed path i).isEmpty then [declareIn placed path i n]
      else declaring (dueAt placed path i) (declareIn placed path i n)) : Runs V).undeclared = runsOf [n] := by
  rw [(behind_due _ _).undeclared_runs, undeclared_runs_declareIn.1 n path i hn, runsOf_singleton]

end Quiet

theorem runsOf_declaration {vs : List LocalId} (h : vs ≠ []) :
    (runsOf (declaration vs) : Runs V) = does (.stmt (.declare vs)) := by
  rw [declaration, if_neg (by simpa using h), runsOf_singleton]
  rfl

theorem walk_behind_declaration {vs : List LocalId} {b : Body} (hv : v ∈ vs)
    (hb : v ∉ (nodesOf b).flatMap opened) {k : List (Action V)} {e : Ending}
    (hk : runsOf (declaration vs ++ b) k e) (s : Status) :
    walk v s k = walk v s.declared (k.filterMap Action.undeclared) := by
  rw [runsOf_append, runsOf_declaration (List.ne_nil_of_mem hv)] at hk
  obtain ⟨⟨-, rfl⟩, hne⟩ | ⟨-, m, ⟨rfl, -⟩, hm, rfl⟩ := hk
  · exact absurd rfl hne
  · have hfollow : (Action.stmt (.declare vs) : Action V).follow v s = some s.declared := by
      rw [Action.follow_eq_some, if_neg (by exact List.not_mem_nil), if_pos (by exact hv)]
      exact ⟨fun h => absurd h List.not_mem_nil, rfl⟩
    rw [List.singleton_append, walk_cons, hfollow, List.filterMap_cons_none rfl]
    exact walk_undeclared fun a ha hd => hb (declaredVars_of_runs b m e hm a ha v hd)

theorem Behind.walk_eq {vs : List LocalId} {n : Node} {l : Body} (h : Behind vs n l) (hv : v ∈ vs)
    (hn : v ∉ n.nodes.flatMap opened) {k : List (Action V)} {e : Ending} (hk : runsOf l k e) (s : Status) :
    walk v s k = walk v s.declared (k.filterMap Action.undeclared) := by
  cases h with
  | plain => exact walk_behind_declaration hv (by simpa using hn) hk s
  | @assign a ha =>
    have hopened : (nodesOf [stmt (.assign { a with declares := true })]).flatMap opened =
        a.targets.filterMap Expr.var? := by
      simp [opened, Stmt.declaredVars]
    by_cases ht : v ∈ a.targets.filterMap Expr.var?
    · -- The assignment itself declares the variable, and writes it at once.
      have hwritten (d : Bool) (s : Status) :
          (Action.stmt (.assign { a with declares := d }) : Action V).follow v s = some .kept := by
        refine Action.follow_of_written (fun hr => reads_of_canDeclare ha hr (targets_of_canDeclare ha ht)) ?_
        simpa [Action.writtenVars, Stmt.writes, Expr.cellOf?_var] using ht
      have hother : v ∉ vs.filter fun v => !(a.targets.filterMap Expr.var?).contains v := by
        intro h
        have := (List.mem_filter.1 h).2
        rw [List.contains_iff_mem.2 ht] at this
        cases this
      rw [runsOf_append, runsOf_singleton] at hk
      obtain ⟨h, hne⟩ | ⟨j, -, hj, ⟨rfl, rfl⟩, rfl⟩ := hk
      · exact absurd (ends_declaration h).1 hne
      · obtain ⟨s', hw, -⟩ := keeps_declaration (P := fun _ => True) hother j _ hj s trivial
        rw [walk_append, hw, List.filterMap_append, (ends_declaration hj).2]
        exact (congrArg (Option.bind · _) (hwritten true s')).trans
          (congrArg (Option.bind · _) (hwritten false s.declared)).symm
    · exact walk_behind_declaration (List.mem_filter.2 ⟨hv, by simpa using ht⟩) (hopened ▸ ht) hk s

theorem Behind.keeps {vs : List LocalId} {n : Node} {l : Body} {P T : Status → Prop} (h : Behind vs n l)
    (hn : ∀ a, n ≠ stmt (.assign a)) (hv : v ∉ vs) (hk : Keeps v P (n.runs : Runs V) T (Fits false)) :
    Keeps v P (runsOf l : Runs V) T (Fits false) := by
  cases h with
  | plain =>
    rw [runsOf_append, runsOf_singleton]
    exact (keeps_declaration hv).forget_break.seq hk
  | assign => exact absurd rfl (hn _)

section Place

variable (hq : PlacedAt placed v q)
include hq

theorem covers_of_mem_opened {b : Body} (hb : Undeclared b)
    (h : v ∈ (nodesOf (declareFrom placed path i b)).flatMap opened) : (⟨path, i⟩ : Position).Covers q := by
  obtain ⟨q', hmem, hc⟩ := mem_opened_of_declareIn.2 b path i hb h
  rwa [(hq q'.path q'.index).1 (mem_dueAt.2 hmem)]

theorem inside_of_mem_opened {n : Node} (hn : Undeclared [n])
    (h : v ∈ (declareIn placed path i n).nodes.flatMap opened) : ∃ w, path ++ [(i, w)] <+: q.path := by
  obtain ⟨q', hmem, hc⟩ := mem_opened_of_declareIn.1 n path i hn h
  rwa [(hq q'.path q'.index).1 (mem_dueAt.2 hmem)]

theorem keeps_beside {n : Node} {P : Status → Prop} (hn : Undeclared [n]) (hw : ¬ q.Within path i)
    (hc : (⟨.var, v⟩ : Cell) ∉ n.nodes.flatMap cells) :
    Keeps v P (runsOf (if (dueAt placed path i).isEmpty then [declareIn placed path i n]
      else declaring (dueAt placed path i) (declareIn placed path i n)) : Runs V) P P := by
  refine keeps_of_quiet (undeclared_runs_due hn) (fun hv => hw ?_) (by simpa using hc)
  rcases (behind_due _ _).mem_opened_nodes hv with h | h
  · exact (hq path i).1 h ▸ Position.within_self path i
  · obtain ⟨w, h⟩ := inside_of_mem_opened hq hn h
    exact Position.within_of_prefix h

theorem keeps_behind {b : Body} {P : Status → Prop} (hb : Undeclared b)
    (ho : CoversAll v q (occurrencesFrom path i b)) (hp : path <+: q.path) (hne : q.path ≠ path)
    (hi : q.indexBelow path.length < i) : Keeps v P (runsOf (declareFrom placed path i b) : Runs V) P P := by
  refine keeps_of_quiet ((undeclared_runs_declareIn.2 b path i hb).trans rfl) (fun hv => ?_)
    (absent_of_behind ho hp hne hi)
  exact absurd (covers_of_mem_opened hq hb hv).2 (Nat.not_le.2 hi)

theorem keeps_from_place {n : Node} {rest : Body} {P T B : Status → Prop} (hb : Undeclared (n :: rest))
    (h : Keeps v (fun s => ∃ s₀, P s₀ ∧ s = s₀.declared) (runsOf (n :: rest) : Runs V) T B) :
    Keeps v P (runsOf (declareFrom placed q.path q.index (n :: rest)) : Runs V) T B := by
  have hdue : v ∈ dueAt placed q.path q.index := (hq q.path q.index).2 rfl
  have hnode : v ∉ (declareIn placed q.path q.index n).nodes.flatMap opened := by
    intro hv
    obtain ⟨w, hw⟩ := inside_of_mem_opened hq hb.single hv
    have := hw.length_le
    simp only [List.length_append, List.length_singleton] at this
    omega
  have hrest {m : List (Action V)} {e : Ending} (hm : runsOf (declareFrom placed q.path (q.index + 1) rest) m e) :
      ∀ a ∈ m, v ∉ a.declaredVars := by
    intro a ha hd
    have : q.index + 1 ≤ q.indexBelow q.path.length :=
      (covers_of_mem_opened hq hb.tail (declaredVars_of_runs _ m e hm a ha v hd)).2
    rw [Position.indexBelow_length] at this
    exact absurd this (Nat.not_succ_le_self _)
  intro l e hl s hs
  have hundeclared : runsOf (n :: rest) (l.filterMap Action.undeclared) e := by
    rw [← undeclared_runs_declareIn.2 (n :: rest) q.path q.index hb]
    exact ⟨l, hl, rfl⟩
  suffices hwalk : walk v s l = walk v s.declared (l.filterMap Action.undeclared) by
    rw [hwalk]
    exact h _ e hundeclared _ ⟨s, hs, rfl⟩
  rw [declareFrom, runsOf_append] at hl
  obtain ⟨hl, -⟩ | ⟨k, m, hk, hm, rfl⟩ := hl
  · exact (behind_due _ _).walk_eq hdue hnode hl s
  · rw [walk_append, (behind_due _ _).walk_eq hdue hnode hk, List.filterMap_append, walk_append]
    exact congrArg _ (funext fun s => walk_undeclared (hrest hm))

theorem keeps_to_place {b : Body} {P T : Status → Prop} (hb : Undeclared b)
    (ho : CoversAll v q (occurrencesFrom q.path i b)) (hi : i ≤ q.index) (hlt : q.index < i + b.length)
    (h : Keeps v (fun s => ∃ s₀, P s₀ ∧ s = s₀.declared) (runsOf (b.drop (q.index - i)) : Runs V) T (Fits false)) :
    Keeps v P (runsOf (declareFrom placed q.path i b) : Runs V) T (Fits false) := by
  induction b generalizing i with
  | nil => simp at hlt; omega
  | cons n rest ih =>
    simp only [occurrencesFrom, CoversAll, List.forall_mem_append] at ho
    rcases Nat.eq_or_lt_of_le hi with rfl | hlt'
    · rw [Nat.sub_self, List.drop_zero] at h
      exact keeps_from_place hq hb h
    · have hnot : ¬ q.Within q.path i := fun hw => by
        have := hw.2
        rw [Position.indexBelow_length] at this
        omega
      have habsent := absent_of_ne ho.1 List.prefix_rfl (.inl (by rwa [Position.indexBelow_length]))
      have hsub : q.index - i = q.index - (i + 1) + 1 := by omega
      rw [hsub, List.drop_succ_cons] at h
      rw [declareFrom, runsOf_append]
      refine (keeps_beside hq hb.single hnot habsent).forget_break.seq (ih hb.tail ho.2 hlt' ?_ h)
      simp only [List.length_cons] at hlt
      omega

theorem keeps_other_arm {b : Body} {w w' : Nat} {P : Status → Prop} (hb : Undeclared b)
    (ho : CoversAll v q (occurrencesFrom (path ++ [(i, w')]) 0 b)) (hp : path ++ [(i, w)] <+: q.path)
    (hne : w ≠ w') : Keeps v P (runsOf (declareFrom placed (path ++ [(i, w')]) 0 b) : Runs V) P P := by
  have apart {x : Position} (hx : path ++ [(i, w)] <+: x.path) (hx' : path ++ [(i, w')] <+: x.path) : False := by
    have := (List.prefix_of_prefix_length_le hx hx' (by simp)).eq_of_length (by simp)
    simp [hne] at this
  refine keeps_of_quiet ((undeclared_runs_declareIn.2 b _ 0 hb).trans rfl)
    (fun hv => apart hp (covers_of_mem_opened hq hb hv).1) fun hc => ?_
  obtain ⟨o, hmem, hv⟩ := exists_occurrence.2 b (path ++ [(i, w')]) 0 hc
  obtain ⟨j, -, hj⟩ := within_of_mem_occurrences.2 b _ 0 o hmem
  exact apart (hp.trans (ho o hmem hv).1) hj.1

theorem keeps_around {n : Node} {w : Nat} {b : Body} {P T : Status → Prop} (hn : Undeclared [n])
    (ho : CoversAll v q (occurrencesIn path i n)) (hb : n.bodies[w]? = some b)
    (hp : path ++ [(i, w)] <+: q.path) (hloop : n.isLoop = true → ∀ s, P s)
    (htest : ∀ a c, n = repeatUntil a c → v ∈ c.vars → ∀ s, T s → s ≠ .stale)
    (h : Keeps v P (runsOf (declareFrom placed (path ++ [(i, w)]) 0 b) : Runs V) T (Fits false)) :
    Keeps v P ((declareIn placed path i n).runs : Runs V) (Fits false) (Fits false) := by
  have hlt : path.length < q.path.length := by
    have := hp.length_le
    simp only [List.length_append, List.length_singleton] at this
    omega
  have own {es : List Expr} (hes : CoversAll v q (occurAt path i (es.flatMap (·.vars)))) :
      (⟨.var, v⟩ : Cell) ∉ es.flatMap Expr.cells := by
    intro hc
    obtain ⟨e, he, hc⟩ := List.mem_flatMap.1 hc
    exact not_mem_of_inside hes hlt (List.mem_flatMap.2 ⟨e, he, Expr.mem_reads.2 hc⟩)
  have header {es : List Expr} (hes : CoversAll v q (occurAt path i (es.flatMap (·.vars)))) :
      Keeps v P (does (.header es) : Runs V) P (Fits false) :=
    keeps_does_of_absent (own hes)
  have test {c : Expr} (hc : CoversAll v q (occurAt path i c.vars)) (holds : Bool) :
      Keeps v P (does (.test c holds) : Runs V) P (Fits false) :=
    keeps_does_of_absent fun h => not_mem_of_inside hc hlt (Expr.mem_reads.2 h)
  have turn {R : Runs V} {P' T : Status → Prop} (hl : n.isLoop = true) (h : Keeps v P' R T (Fits false)) :
      Keeps v P' R P (Fits false) :=
    h.mono_end fun s _ => hloop hl s
  have one {a : Body} (hb : [a][w]? = some b) : w = 0 ∧ a = b := by
    rcases w with _ | w <;> cases hb
    exact ⟨rfl, rfl⟩
  cases n with
  | stmt s | brk => cases hb
  | scope a =>
    obtain ⟨rfl, rfl⟩ := one hb
    exact h.forget
  | ifThen c a =>
    obtain ⟨rfl, rfl⟩ := one hb
    have hc : CoversAll v q (occurAt path i c.vars) := fun o h => ho o (List.mem_append_left _ h)
    exact ((test hc true).seq h.forget).either (test hc false).forget
  | ifElse c a a' =>
    simp only [occurrencesIn, CoversAll, List.forall_mem_append] at ho
    obtain ⟨⟨hc, ha⟩, ha'⟩ := ho
    rcases w with _ | _ | w <;> cases hb
    · have hother := keeps_other_arm (P := P) (V := V) hq (hn.inside (.tail _ (.head _))) ha' hp Nat.zero_ne_one
      exact ((test hc true).seq h.forget).either ((test hc false).seq hother.forget_break).forget
    · have hother := keeps_other_arm (P := P) (V := V) hq (hn.inside (.head _)) ha hp Nat.one_ne_zero
      exact ((test hc true).seq hother.forget_break).forget.either ((test hc false).seq h.forget)
  | whileDo c a =>
    obtain ⟨rfl, rfl⟩ := one hb
    have hc : CoversAll v q (occurAt path i c.vars) := fun o h => ho o (List.mem_append_left _ h)
    exact ((test hc true).seq (turn rfl h)).loop (test hc false).forget
  | repeatUntil a c =>
    obtain ⟨rfl, rfl⟩ := one hb
    have hc (holds : Bool) : Keeps v T (does (.test c holds) : Runs V) (Fits false) (Fits false) := by
      by_cases hv : v ∈ c.vars
      · have : Keeps v (Fits true) (does (.test c holds) : Runs V) (Fits true) (Fits false) :=
          .does rfl fun _ => rfl
        exact (this.mono_start fun s hs _ => htest a c rfl hv s hs).forget
      · exact (keeps_does_of_absent fun h => hv (Expr.mem_reads.2 h)).forget
    exact (h.seq (turn rfl (hc false))).loop (h.seq (hc true))
  | numericFor u x y z a | genericFor us es a =>
    obtain ⟨rfl, rfl⟩ := one hb
    simp only [occurrencesIn, ownVars, definedVars, occurAt, List.map_append, CoversAll, List.forall_mem_append] at ho
    have hbody : Keeps v (Fits false) (runsOf (declareFrom placed (path ++ [(i, 0)]) 0 a) : Runs V) (Fits false)
        (Fits false) := (h.mono_start fun s _ => hloop rfl s).forget
    refine (header ho.1.2).seq (Keeps.mono_start (P := Fits false) ?_ fun _ _ => fits_false _)
    exact .loop (C := Fits false) hbody.bound (.nil fun _ h => h)

theorem keeps_across {b : Body} {n : Node} {j w : Nat} {P : Status → Prop} (hb : Undeclared b)
    (ho : CoversAll v q (occurrencesFrom path i b)) (hp : path ++ [(j, w)] <+: q.path) (hi : i ≤ j)
    (hn : b[j - i]? = some n) (hbodies : n.bodies ≠ [])
    (h : Keeps v P ((declareIn placed path j n).runs : Runs V) (Fits false) (Fits false)) :
    Keeps v P (runsOf (declareFrom placed path i b) : Runs V) (Fits false) (Fits false) := by
  have hwithin := Position.within_of_prefix hp
  have hne : q.path ≠ path := by
    rintro rfl
    have := hp.length_le
    simp only [List.length_append, List.length_singleton] at this
    omega
  induction b generalizing i with
  | nil => simp at hn
  | cons m rest ih =>
    simp only [occurrencesFrom, CoversAll, List.forall_mem_append] at ho
    rw [declareFrom, runsOf_append]
    rcases Nat.eq_or_lt_of_le hi with rfl | hlt
    · obtain rfl : m = n := by simpa using hn
      have hdue : v ∉ dueAt placed path i := fun hv => hne (by rw [(hq path i).1 hv])
      refine ((behind_due _ _).keeps (fun a he => hbodies ?_) hdue h).seq
        (keeps_behind hq hb.tail ho.2 hwithin.1 hne (by rw [hwithin.2]; exact Nat.lt_succ_self i))
      cases m <;> first | rfl | cases he
    · have hnot : ¬ q.Within path i := fun hw => Nat.ne_of_lt hlt (hw.2.symm.trans hwithin.2)
      have habsent := absent_of_ne ho.1 hwithin.1 (.inl (hwithin.2.symm ▸ hlt))
      refine (keeps_beside hq hb.single hnot habsent).forget_break.seq (ih hb.tail ho.2 hlt ?_)
      rwa [show j - i = j - (i + 1) + 1 by omega, List.getElem?_cons_succ] at hn

theorem keeps_along {root body : Body} {P T : Status → Prop} (hbody : bodyAt? root q.path = some body)
    (hlt : q.index < body.length)
    (hloop : ∀ up j w rest n, q.path = up ++ (j, w) :: rest → nodeAt? root ⟨up, j⟩ = some n →
      n.isLoop = true → ∀ s, P s)
    (htest : ∀ up j w a c, q.path = up ++ [(j, w)] → nodeAt? root ⟨up, j⟩ = some (repeatUntil a c) →
      v ∈ c.vars → ∀ s, T s → s ≠ .stale)
    (h : Keeps v (fun s => ∃ s₀, P s₀ ∧ s = s₀.declared) (runsOf (body.drop q.index) : Runs V) T (Fits false))
    {path rest : Path} {b : Body} (hp : q.path = path ++ rest) (hb : bodyAt? root path = some b)
    (hu : Undeclared b) (ho : CoversAll v q (occurrencesFrom path 0 b)) :
    Keeps v P (runsOf (declareFrom placed path 0 b) : Runs V) (fun s => path = q.path → T s) (Fits false) := by
  induction rest generalizing path b with
  | nil =>
    obtain rfl : path = q.path := by rw [hp, List.append_nil]
    obtain rfl : b = body := Option.some.inj (hb.symm.trans hbody)
    exact (keeps_to_place hq hu ho (Nat.zero_le _) (by omega) h).mono_end fun _ h _ => h
  | cons step rest ih =>
    obtain ⟨j, w⟩ := step
    -- The next node on the way, and the body inside it.
    obtain ⟨n, c, hn, hc⟩ : ∃ n c, b[j]? = some n ∧ n.bodies[w]? = some c := by
      rw [hp, bodyAt?_append, hb, Option.bind_some, bodyAt?] at hbody
      split at hbody
      · cases hbody
      · next n hn =>
        split at hbody
        · cases hbody
        · next c hc => exact ⟨n, c, hn, hc⟩
    have hnode : nodeAt? root ⟨path, j⟩ = some n := by simp [nodeAt?, hb, hn]
    have hprefix : path ++ [(j, w)] <+: q.path := ⟨rest, by rw [hp, List.append_assoc]; rfl⟩
    have hcovers : CoversAll v q (occurrencesIn path j n) := fun o hmem => ho o (mem_occurrencesFrom hn o hmem)
    have hun : Undeclared [n] := hu.mono (nodesOf_mono (by simpa using List.mem_of_getElem? hn))
    have hinner : Keeps v P (runsOf (declareFrom placed (path ++ [(j, w)]) 0 c) : Runs V)
        (fun s => path ++ [(j, w)] = q.path → T s) (Fits false) :=
      ih (by rw [hp, List.append_assoc]; rfl) (bodyAt?_inside hb hn hc) (hun.inside (List.mem_of_getElem? hc))
        fun o hmem => hcovers o (occurrencesFrom_subset hc o hmem)
    have hnodeKeeps := keeps_around hq hun hcovers hc hprefix (hloop path j w rest n hp hnode) (fun a e he hv s hs => ?_) hinner
    · refine (keeps_across hq hu ho hprefix (Nat.zero_le j) hn (List.ne_nil_of_mem (List.mem_of_getElem? hc))
        hnodeKeeps).mono_end fun _ _ he => ?_
      have := congrArg List.length (he.trans hp)
      simp at this
    · subst he
      -- The test is an occurrence, so the place is in the body itself.
      have hcover := hcovers _ (mem_occurrencesIn_of_test hv) rfl
      have heq : path ++ [(j, w)] = q.path :=
        hprefix.eq_of_length (Nat.le_antisymm hprefix.length_le (by simpa using hcover.1.length_le))
      exact htest path j w a e heq.symm hnode hv s (hs heq)

end Place

def InLoop (root : Body) (path : Path) : Prop :=
  ∃ up j w rest n, path = up ++ (j, w) :: rest ∧ nodeAt? root ⟨up, j⟩ = some n ∧ n.isLoop = true

def Harmless (root : Body) (p : Placement) : Prop :=
  ¬ InLoop root p.2.path ∨ ∃ b, bodyAt? root p.2.path = some b ∧ readFirst root p.1 p.2 b = false

theorem scanned_of_readFirst {root b : Body} {q : Position} (h : readFirst root v q b = false) :
    ∃ known, scanAll v false (b.drop q.index) = some known ∧
      ∀ up j w a c, q.path = up ++ [(j, w)] → nodeAt? root ⟨up, j⟩ = some (repeatUntil a c) →
        v ∈ c.vars → known = true := by
  simp only [readFirst, Option.isNone_eq_false_iff, Option.isSome_iff_exists, Option.bind_eq_some_iff] at h
  obtain ⟨k, known, hscan, hread⟩ := h
  refine ⟨known, hscan, fun up j w a c hp hn hv => ?_⟩
  rw [hp, List.getLast?_concat, List.dropLast_concat] at hread
  simp only [hn] at hread
  exact (readBy_eq_some.1 hread).2 (by simpa using hv)

theorem mem_nodesOf_of_nodeAt? {root : Body} {q : Position} {n : Node} (h : nodeAt? root q = some n) :
    n ∈ nodesOf root := by
  obtain ⟨b, hb, hn⟩ := Option.bind_eq_some_iff.1 h
  exact nodesOf_bodyAt?_subset hb (subset_nodesOf b (List.mem_of_getElem? hn))

theorem nodeAt?_inside {root : Body} {up rest : Path} {j w k : Nat} {m : Node}
    (h : nodeAt? root ⟨up ++ (j, w) :: rest, k⟩ = some m) :
    ∃ n b, nodeAt? root ⟨up, j⟩ = some n ∧ n.bodies[w]? = some b ∧ nodeAt? b ⟨rest, k⟩ = some m := by
  obtain ⟨c, hc, hm⟩ := Option.bind_eq_some_iff.1 h
  rw [bodyAt?_append] at hc
  obtain ⟨full, hfull, hc⟩ := Option.bind_eq_some_iff.1 hc
  rw [bodyAt?] at hc
  split at hc
  · cases hc
  · next n hn =>
    split at hc
    · cases hc
    · next b hb => exact ⟨n, b, by simp [nodeAt?, hfull, hn], hb, by simp [nodeAt?, hc, hm]⟩

theorem hoist_cases (root : Body) (v : LocalId) (up : List (Nat × Nat)) (i : Nat) {q : Position}
    (hq : hoist root v up i = q) : q.path = [] ∨ (∀ b, bodyAt? root q.path = some b → readFirst root v q b = false) ∨
      ∃ n, nodeAt? root q = some n ∧ n.isLoop = true := by
  induction up generalizing i with
  | nil => exact .inl (by rw [← hq]; rfl)
  | cons step up ih =>
    obtain ⟨j, w⟩ := step
    rw [hoist] at hq
    simp only at hq
    split at hq
    · next hnone =>
      subst hq
      exact .inr (.inl fun b hb => by rw [hnone] at hb; cases hb)
    · next body hbody =>
      split at hq
      · split at hq
        · next n hn =>
          split at hq
          · next hloop =>
            subst hq
            exact .inr (.inr ⟨n, hn, hloop⟩)
          · exact ih j hq
        · exact ih j hq
      · next hread =>
        subst hq
        refine .inr (.inl fun b hb => ?_)
        cases hbody.symm.trans hb
        exact Bool.eq_false_iff.2 hread

/-- `while a do while b do f(x); x = true end end`: the first loop that is left is not the last one that
carries the value over. -/
example :
    let inner : Body := [whileDo (.global "b") [stmt (.call (.global "f") [.var 0] 0),
      stmt (.store (.var 0) (.boolean true))]]
    placements [whileDo (.global "a") inner] ⟨[⟨0, "x", .plain⟩]⟩ = [(0, ⟨[(0, 0)], 0⟩)] ∧
      readFirst [whileDo (.global "a") inner] 0 ⟨[(0, 0)], 0⟩ inner = true := by
  decide

def Flat (root : Body) : Prop :=
  ∀ n ∈ nodesOf root, n.isLoop = true → ∀ b ∈ n.bodies, ∀ m ∈ nodesOf b, m.isLoop = false

theorem harmless_of_flat {root : Body} {t : Locals} (hf : Flat root) {p : Placement} (hp : p ∈ placements root t) :
    Harmless root p := by
  obtain ⟨v, q⟩ := p
  have hplace := (mem_placements hp).2
  obtain ⟨body, hbody, -⟩ := standing_iff.1 (placement?_spec hplace).2.1
  obtain ⟨x, -, hx⟩ := Option.map_eq_some_iff.1 hplace
  rcases hoist_cases root v x.path.reverse x.index (Prod.mk.inj hx).2 with hnil | hread | ⟨m, hm, hloop⟩
  · refine .inl fun ⟨up, j, w, rest, n, hpath, _⟩ => ?_
    rw [hnil] at hpath
    exact List.cons_ne_nil _ _ (List.append_eq_nil_iff.1 hpath.symm).2
  · exact .inr ⟨body, hbody, hread body hbody⟩
  · -- The place is in front of a loop, and no loop stands in another one.
    refine .inl fun ⟨up, j, w, rest, n, hpath, hn, hl⟩ => ?_
    obtain ⟨path, k⟩ := q
    cases hpath
    obtain ⟨n', b, hn', hb, hm⟩ := nodeAt?_inside hm
    cases hn.symm.trans hn'
    have := hf n (mem_nodesOf_of_nodeAt? hn) hl b (List.mem_of_getElem? hb) m (mem_nodesOf_of_nodeAt? hm)
    rw [hloop] at this
    cases this

section Placed

variable {root : Body} {t : Locals} (hu : Undeclared root)
include hu

theorem keeps_placed {q : Position} (hq : (v, q) ∈ placements root t) (hb : Unbroken root)
    (hh : Harmless root (v, q)) :
    Keeps v (· = .untouched) (runsOf (declareFrom (placements root t) [] 0 root) : Runs V) (Fits false)
      (Fits false) := by
  obtain ⟨-, hstand, hcovers⟩ := placement?_spec (mem_placements hq).2
  obtain ⟨body, hbody, hlt⟩ := standing_iff.1 hstand
  have hsub : nodesOf (body.drop q.index) ⊆ nodesOf root :=
    List.Subset.trans (nodesOf_mono (List.drop_subset _ _)) (nodesOf_bodyAt?_subset hbody)
  rcases hh with hout | ⟨b, hb', hread⟩
  · -- Outside all loops nothing has been assigned yet where the variable is declared.
    have hplace : Keeps v (fun s => ∃ s₀, s₀ = untouched ∧ s = s₀.declared) (runsOf (body.drop q.index) : Runs V)
        (Fits false) (Fits false) := by
      refine (keeps_of_assigned (hu.mono hsub) false).forget_break.mono_start ?_
      rintro _ ⟨_, rfl, rfl⟩ _
      exact Status.noConfusion
    refine (keeps_along (placedAt_placements hq) hbody hlt (fun up j w rest n hp hn hl => ?_)
      (fun up j w a c hp hn => ?_) hplace rfl rfl hu hcovers).forget
    · exact absurd ⟨up, j, w, rest, n, hp, hn, hl⟩ hout
    · exact absurd ⟨up, j, w, [], _, hp, hn, rfl⟩ hout
  · -- In a loop the scan has seen that the variable is assigned before it is read.
    obtain rfl : body = b := Option.some.inj (hbody.symm.trans hb')
    obtain ⟨known, hscan, htest⟩ := scanned_of_readFirst hread
    have hplace : Keeps v (fun s => ∃ s₀, Fits false s₀ ∧ s = s₀.declared) (runsOf (body.drop q.index) : Runs V)
        (Fits known) (Fits false) :=
      (keeps_of_scan.2 _ false known (hu.mono hsub) (hb.mono hsub) hscan).mono_start fun _ _ => fits_false _
    have hall := keeps_along (placedAt_placements hq) hbody hlt (fun _ _ _ _ _ _ _ _ _ => fits_false _)
      (fun up j w a c hp hn hv s hs => hs (htest up j w a c hp hn hv)) hplace rfl rfl hu hcovers
    exact hall.forget.mono_start fun _ _ => fits_false _

theorem keeps_unplaced (hq : ∀ q, (v, q) ∉ placements root t) :
    Keeps v (Fits true) (runsOf (declareFrom (placements root t) [] 0 root) : Runs V) (Fits true) (Fits true) := by
  have hd : All (fun a : Action V => v ∉ a.declaredVars) (runsOf (declareFrom (placements root t) [] 0 root)) := by
    refine (declaredVars_of_runs _).mono fun a ha hv => ?_
    obtain ⟨q, hmem, -⟩ := mem_opened_of_declareIn.2 root [] 0 hu (ha v hv)
    exact hq q hmem
  exact (keeps_of_undeclared hd).mono (fun _ h => h rfl) (fun _ h _ => h) fun _ h _ => h

end Placed

end Node

namespace Routine

open Node Runs Status

variable {V : Type} {r : Routine}

theorem valuesRead_declare (hu : Undeclared r.body) (hb : Unbroken r.body)
    (hp : ∀ p ∈ placements r.body r.locals, Harmless r.body p) (I : Valuation V) (args : Slot → V)
    {l : List (Action V)} {e : Ending} (hl : runsOf r.declare.body l e) :
    valuesRead I l (.ofLocals r.locals args) =
      valuesRead I (l.filterMap Action.undeclared) (.ofLocals r.locals args) := by
  classical
  let st : LocalId → Status := fun v => if ∃ q, (v, q) ∈ placements r.body r.locals then .untouched else .kept
  rw [body_declare] at hl
  have hstart : Store.Beside st (Store.ofLocals r.locals args) (Store.ofLocals r.locals args) := by
    refine ⟨fun _ => rfl, fun v => ?_⟩
    by_cases hq : ∃ q, (v, q) ∈ placements r.body r.locals
    · have hnone : Store.ofLocals r.locals args ⟨.var, v⟩ = none := by
        obtain ⟨q, hq⟩ := hq
        obtain ⟨x, hx, hk⟩ := Option.map_eq_some_iff.1 (mem_placements hq).1
        simp [Store.ofLocals, hx, hk]
      simp only [st, if_pos hq]
      exact ⟨hnone, hnone⟩
    · simp only [st, if_neg hq]
      exact rfl
  refine valuesRead_undeclared I hstart fun v => ?_
  by_cases hq : ∃ q, (v, q) ∈ placements r.body r.locals
  · have ⟨q, hmem⟩ := hq
    obtain ⟨s, hw, -⟩ := keeps_placed hu hmem hb (hp _ hmem) l e hl _ rfl
    exact ⟨s, by simpa only [st, if_pos hq] using hw⟩
  · obtain ⟨s, hw, -⟩ := keeps_unplaced hu (not_exists.1 hq) l e hl .kept fun _ => Status.noConfusion
    exact ⟨s, by simpa only [st, if_neg hq] using hw⟩

theorem valuesRead_iff_declare (hu : Undeclared r.body) (hb : Unbroken r.body)
    (hp : ∀ p ∈ placements r.body r.locals, Harmless r.body p) (I : Valuation V) (args : Slot → V)
    {l : List (Action V)} {e : Ending} {xs : List (Option V)} :
    runsOf r.body l e ∧ valuesRead I l (.ofLocals r.locals args) = xs ↔
      ∃ k, runsOf r.declare.body k e ∧ k.filterMap Action.undeclared = l ∧
        valuesRead I k (.ofLocals r.locals args) = xs := by
  constructor
  · rintro ⟨hl, rfl⟩
    obtain ⟨k, hk, rfl⟩ := (runs_iff_declare hu).1 hl
    exact ⟨k, hk, rfl, valuesRead_declare hu hb hp I args hk⟩
  · rintro ⟨k, hk, rfl, rfl⟩
    exact ⟨(runs_iff_declare hu).2 ⟨k, hk, rfl⟩, (valuesRead_declare hu hb hp I args hk).symm⟩

theorem valuesRead_iff_declare_of_flat (hu : Undeclared r.body) (hb : Unbroken r.body) (hf : Flat r.body)
    (I : Valuation V) (args : Slot → V) {l : List (Action V)} {e : Ending} {xs : List (Option V)} :
    runsOf r.body l e ∧ valuesRead I l (.ofLocals r.locals args) = xs ↔
      ∃ k, runsOf r.declare.body k e ∧ k.filterMap Action.undeclared = l ∧
        valuesRead I k (.ofLocals r.locals args) = xs :=
  valuesRead_iff_declare hu hb (fun _ => harmless_of_flat hf) I args

end Routine

end LuaLift
