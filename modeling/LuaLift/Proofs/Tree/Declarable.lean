import LuaLift.Proofs.Tree.Accepted
import LuaLift.Proofs.Tree.Declaring

namespace LuaLift

namespace Node

mutual

def freeVars : Node → List LocalId
  | stmt s => (stmt s).ownVars
  | brk => []
  | scope b => freeVarsOf b
  | ifThen c b => c.vars ++ freeVarsOf b
  | ifElse c a b => c.vars ++ freeVarsOf a ++ freeVarsOf b
  | whileDo c b => c.vars ++ freeVarsOf b
  | repeatUntil b c => freeVarsOf b ++ c.vars
  | numericFor v x y z b => [x, y, z].flatMap (·.vars) ++ (freeVarsOf b).filter (· ≠ v)
  | genericFor vs es b => es.flatMap (·.vars) ++ (freeVarsOf b).filter (· ∉ vs)

def freeVarsOf : List Node → List LocalId
  | [] => []
  | n :: rest => freeVars n ++ freeVarsOf rest

end

variable {v : LocalId}

theorem ownVars_of_undeclared {s : Stmt} (h : s.isDeclaration = false) :
    v ∈ (stmt s).ownVars ↔ v ∈ s.usedVars := by
  cases s with
  | assign a =>
    have hd : a.declares = false := h
    have hw : (Stmt.assign a).writtenVars = a.targets.filterMap Expr.var? := by
      simp only [Stmt.writtenVars, Stmt.writes, show Expr.cellOf? .var = Expr.var? from funext Expr.cellOf?_var]
    simp only [ownVars, definedVars, expressions, hw, Stmt.usedVars, hd, Stmt.readVars, Stmt.reads, Expr.vars,
      List.mem_append, Bool.false_eq_true, if_false]
    exact or_comm
  | declare vs => cases h
  | call f as l => rfl
  | ret es l => rfl

theorem opened_of_undeclared_body {b : Body} (h : Undeclared b) : b.flatMap opened = [] := by
  induction b with
  | nil => rfl
  | cons n rest ih => rw [List.flatMap_cons, opened_of_undeclared fun s hs => h.head hs, ih h.tail, List.append_nil]

theorem sees_iff_freeVars :
    (∀ n seen, Undeclared [n] → (Sees v seen n ↔ (v ∈ freeVars n → seen))) ∧
      ∀ b seen, Undeclared b → (SeesAll v seen b ↔ (v ∈ freeVarsOf b → seen)) := by
  refine tree_induct (fun n ih seen hn => ?_) (fun seen _ => by simp [freeVarsOf]) fun n rest ihn ih seen hb => ?_
  · have hbody {b : Body} (hb : b ∈ n.bodies) (seen : Prop) := ih b hb seen (hn.inside hb)
    cases n with
    | stmt s => rw [Sees, freeVars, ownVars_of_undeclared (hn.head rfl)]
    | brk => simp [freeVars]
    | scope b => rw [Sees, freeVars, hbody (.head _)]
    | ifThen c b => rw [Sees, freeVars, hbody (.head _), List.mem_append, or_imp]
    | ifElse c a b =>
      rw [Sees, freeVars, hbody (.head _), hbody (.tail _ (.head _)), List.mem_append, List.mem_append, or_imp, or_imp,
        and_assoc]
    | whileDo c b => rw [Sees, freeVars, hbody (.head _), List.mem_append, or_imp]
    | repeatUntil b c =>
      have hopened : b.flatMap opened = [] := opened_of_undeclared_body (hn.inside (.head _))
      rw [Sees, freeVars, hbody (.head _), hopened, List.mem_append, or_imp]
      simp
    | numericFor w x y z b =>
      rw [Sees, freeVars, hbody (.head _), List.mem_append, or_imp]
      refine and_congr_right fun _ => ?_
      by_cases hw : v = w <;> simp [hw]
    | genericFor ws es b =>
      rw [Sees, freeVars, hbody (.head _), List.mem_append, or_imp]
      refine and_congr_right fun _ => ?_
      by_cases hw : v ∈ ws <;> simp [hw]
  · have hopened : n.opened = [] := opened_of_undeclared fun s hs => hb.head hs
    rw [SeesAll, hopened, ihn seen hb.single, ih _ hb.tail, freeVarsOf, List.mem_append, or_imp]
    simp

theorem exists_occurrence :
    (∀ n path i, ⟨.var, v⟩ ∈ n.nodes.flatMap cells → ∃ o ∈ occurrencesIn path i n, o.var = v) ∧
      ∀ b path i, ⟨.var, v⟩ ∈ (nodesOf b).flatMap cells → ∃ o ∈ occurrencesFrom path i b, o.var = v := by
  refine tree_induct (fun n ih path i h => ?_) (fun _ _ h => by cases h) fun n rest ihn ih path i h => ?_
  · rw [flatMap_nodes, List.mem_append] at h
    rcases h with h | h
    · rw [mem_cells_iff] at h
      have hown (hv : v ∈ n.definedVars ∨ v ∈ n.expressions.flatMap (·.vars)) :
          v ∈ n.definedVars ++ n.expressions.flatMap (·.vars) := List.mem_append.2 hv
      cases n with
      | stmt s => exact ⟨_, mem_occurAt (hown h), rfl⟩
      | brk => simp [definedVars] at h
      | scope b => simp [definedVars] at h
      | ifElse c a b =>
        have hv : v ∈ c.vars := by simpa [definedVars] using h
        exact ⟨_, List.mem_append_left _ (List.mem_append_left _ (mem_occurAt hv)), rfl⟩
      | repeatUntil b c =>
        have hv : v ∈ c.vars := by simpa [definedVars] using h
        exact ⟨_, mem_occurrencesIn_of_test hv, rfl⟩
      | numericFor w x y z b => exact ⟨_, List.mem_append_left _ (mem_occurAt (hown h)), rfl⟩
      | genericFor ws es b => exact ⟨_, List.mem_append_left _ (mem_occurAt (hown h)), rfl⟩
      | _ =>
        refine ⟨_, List.mem_append_left _ (mem_occurAt ?_), rfl⟩
        simpa [definedVars] using h
    · obtain ⟨b, hb, hc⟩ := List.mem_flatMap.1 h
      obtain ⟨w, hw⟩ := List.mem_iff_getElem?.1 hb
      obtain ⟨o, ho, hv⟩ := ih b hb (path ++ [(i, w)]) 0 hc
      exact ⟨o, occurrencesFrom_subset hw o ho, hv⟩
  · rw [nodesOf, List.flatMap_append, List.mem_append] at h
    rcases h with h | h
    · obtain ⟨o, ho, hv⟩ := ihn path i h
      exact ⟨o, List.mem_append_left _ ho, hv⟩
    · obtain ⟨o, ho, hv⟩ := ih path (i + 1) h
      exact ⟨o, List.mem_append_right _ ho, hv⟩

section Placements

variable {root : Body} {t : Locals}

theorem mem_placements {p : Placement} (h : p ∈ placements root t) : t.kind? p.1 = some .plain ∧
    placement? root (occurrencesFrom [] 0 root) p.1 = some p := by
  obtain ⟨v, hv, hp⟩ := List.mem_filterMap.1 h
  obtain ⟨w, q⟩ := p
  obtain ⟨rfl, -⟩ := placement?_spec hp
  exact ⟨by simpa using (List.mem_filter.1 hv).2, hp⟩

theorem nodup_placements : ((placements root t).map Prod.fst).Nodup := by
  have hsub (vs : List LocalId) :
      ((vs.filterMap (placement? root (occurrencesFrom [] 0 root))).map Prod.fst).Sublist vs := by
    induction vs with
    | nil => exact .refl _
    | cons v vs ih =>
      cases hp : placement? root (occurrencesFrom [] 0 root) v with
      | none =>
        rw [List.filterMap_cons_none hp]
        exact ih.cons v
      | some p =>
        obtain ⟨w, q⟩ := p
        obtain ⟨rfl, -⟩ := placement?_spec hp
        rw [List.filterMap_cons_some hp, List.map_cons]
        exact ih.cons_cons _
  exact (hsub _).nodup (List.nodup_range.filter _)

theorem placedAt_placements {q : Position} (h : (v, q) ∈ placements root t) :
    PlacedAt (placements root t) v q := by
  intro path i
  rw [mem_dueAt]
  constructor
  · intro h'
    have := (mem_placements h).2.symm.trans (mem_placements h').2
    cases this
    rfl
  · rintro rfl
    exact h

theorem exists_placement (hk : t.kind? v = some .plain) (h : ⟨.var, v⟩ ∈ (nodesOf root).flatMap cells) :
    ∃ q, (v, q) ∈ placements root t := by
  obtain ⟨o, ho, hv⟩ := exists_occurrence.2 root [] 0 h
  have hsize : v < t.size := by
    obtain ⟨l, hl, -⟩ := Option.map_eq_some_iff.1 hk
    exact (List.getElem?_eq_some_iff.1 hl).1
  have hne : commonPosition? (((occurrencesFrom [] 0 root).filter (·.var = v)).map (·.position)) ≠ none := by
    cases hl : (occurrencesFrom [] 0 root).filter (·.var = v) with
    | nil =>
      have : o ∈ (occurrencesFrom [] 0 root).filter (·.var = v) := List.mem_filter.2 ⟨ho, by simp [hv]⟩
      rw [hl] at this
      cases this
    | cons o l => simp [commonPosition?]
  obtain ⟨x, hx⟩ := Option.ne_none_iff_exists'.1 hne
  refine ⟨hoist root v x.path.reverse x.index, List.mem_filterMap.2 ⟨v, ?_, by rw [placement?, hx]; rfl⟩⟩
  exact List.mem_filter.2 ⟨List.mem_range.2 hsize, by simp [hk]⟩

end Placements

end Node

namespace Routine

open Node

structure Formed (r : Routine) : Prop where
  parameters : r.parameters = (List.range r.locals.size).filter fun v => r.locals.kind? v = some .parameter
  known : ∀ c ∈ (nodesOf r.body).flatMap cells, r.locals.Knows c
  undeclared : Undeclared r.body
  neat : NeatAll false r.body
  headers : ∀ v, v ∈ (nodesOf r.body).flatMap headerVars ↔ r.locals.kind? v = some .loop

/-- Variables of loops stay in their loops, and nothing is declared twice at one place. -/
structure Declarable (r : Routine) : Prop where
  loops : ∀ v, r.locals.kind? v = some .loop → v ∉ freeVarsOf r.body
  headers : ((nodesOf r.body).flatMap headerVars).Nodup
  targets : DeclaresOnce (nodesOf r.declare.body)

section Undeclared

variable {r : Routine} {v : LocalId}

theorem headers_declare : (nodesOf r.declare.body).flatMap headerVars = (nodesOf r.body).flatMap headerVars := by
  rw [body_declare]
  exact headerVars_declareIn.2 _ _ _

variable (hu : Undeclared r.body)
include hu

theorem tally_opened_declare (hk : r.locals.kind? v ≠ some .plain) : tally opened v r.declare.body = 0 := by
  refine List.count_eq_zero.2 fun hv => hk ?_
  rw [body_declare] at hv
  obtain ⟨q, hq, -⟩ := mem_opened_of_declareIn.2 _ _ _ hu hv
  exact (mem_placements hq).1

theorem sees_plain (hk : r.locals.kind? v = some .plain) : SeesAll v False r.declare.body := by
  rw [body_declare]
  by_cases hp : ∃ q, (v, q) ∈ placements r.body r.locals
  · obtain ⟨q, hq⟩ := hp
    have hsees := (sees_declareIn (placedAt_placements hq)).2 r.body [] 0 hu
      (placement?_spec (mem_placements hq).2).2.2
    exact sees_mono.2 _ _ _ (fun hpassed => (Position.not_passed_start q hpassed).elim) hsees
  · refine sees_of_cells.2 _ _ fun hc => hp ?_
    rcases cells_declareIn.2 _ _ _ hc with hc | ⟨⟨w, q⟩, hq, he⟩
    · exact exists_placement hk hc
    · cases he
      exact ⟨q, hq⟩

theorem tally_opened_le (ht : DeclaresOnce (nodesOf r.declare.body)) : tally opened v r.declare.body ≤ 1 := by
  rw [body_declare] at ht ⊢
  by_cases hv : v ∈ (nodesOf (declareFrom (placements r.body r.locals) [] 0 r.body)).flatMap opened
  · obtain ⟨q, hq, -⟩ := mem_opened_of_declareIn.2 _ _ _ hu hv
    exact ((count_opened_declareIn nodup_placements (placedAt_placements hq)).2 r.body [] 0 hu ht).1
  · rw [tally, List.count_eq_zero.2 hv]
    exact Nat.zero_le _

end Undeclared

namespace Formed

variable {r : Routine} (h : r.Formed) {v : LocalId}
include h

theorem mem_parameters : v ∈ r.parameters ↔ r.locals.kind? v = some .parameter := by
  rw [h.parameters, List.mem_filter, List.mem_range, decide_eq_true_eq, and_iff_right_iff_imp]
  intro hk
  obtain ⟨l, hl, -⟩ := Option.map_eq_some_iff.1 hk
  exact (List.getElem?_eq_some_iff.1 hl).1

theorem nodup_parameters : r.parameters.Nodup := by
  rw [h.parameters]
  exact List.nodup_range.filter _

theorem known_declare : ∀ c ∈ (nodesOf r.declare.body).flatMap cells, r.locals.Knows c := by
  intro c hc
  rw [body_declare] at hc
  rcases cells_declareIn.2 _ _ _ hc with hc | ⟨p, hp, rfl⟩
  · exact h.known c hc
  · obtain ⟨l, hl, -⟩ := Option.map_eq_some_iff.1 (mem_placements hp).1
    exact ⟨rfl, (List.getElem?_eq_some_iff.1 hl).1⟩

theorem neat_declare : NeatAll false r.declare.body := by
  rw [body_declare]
  refine ((neat_declareIn fun p hp => ?_).2 r.body [] r.body 0 false rfl rfl h.neat).1
  obtain ⟨v, q⟩ := p
  exact (placement?_spec (mem_placements hp).2).2.1

theorem sees_declare (hk : r.locals.kind? v ≠ some .plain) {seen : Prop} :
    SeesAll v seen r.declare.body ↔ SeesAll v seen r.body := by
  rw [body_declare]
  refine (sees_declareIn_other fun path i hv => hk ?_).2 _ _ _ _ h.undeclared
  exact (mem_placements (mem_dueAt.1 hv)).1

theorem count_parameters (hk : r.locals.kind? v ≠ some .parameter) : r.parameters.count v = 0 :=
  List.count_eq_zero.2 fun hv => hk (h.mem_parameters.1 hv)

theorem tally_headerVars_declare (hk : r.locals.kind? v ≠ some .loop) : tally headerVars v r.declare.body = 0 := by
  refine List.count_eq_zero.2 fun hv => hk ?_
  rw [headers_declare] at hv
  exact (h.headers v).1 hv

theorem declared_once (hd : r.Declarable) :
    r.parameters.count v + (tally opened v r.declare.body + tally headerVars v r.declare.body) ≤ 1 := by
  by_cases hp : r.locals.kind? v = some .plain
  · have := Routine.tally_opened_le h.undeclared hd.targets (v := v)
    rw [h.count_parameters (by simp [hp]), h.tally_headerVars_declare (by simp [hp])]
    omega
  · rw [tally_opened_declare h.undeclared hp]
    by_cases hl : r.locals.kind? v = some .loop
    · have hnodup := List.nodup_iff_count.1 hd.headers v
      rw [← headers_declare] at hnodup
      rw [h.count_parameters (by simp [hl]), Nat.zero_add, Nat.zero_add]
      exact hnodup
    · rw [h.tally_headerVars_declare hl]
      exact List.nodup_iff_count.1 h.nodup_parameters v

theorem sees_declared (hd : r.Declarable) : SeesAll v (v ∈ r.parameters) r.declare.body := by
  by_cases hp : r.locals.kind? v = some .plain
  · exact sees_mono.2 _ _ _ False.elim (sees_plain h.undeclared hp)
  · rw [h.sees_declare hp]
    by_cases hl : r.locals.kind? v = some .loop
    · exact (sees_iff_freeVars.2 _ _ h.undeclared).2 fun hv => absurd hv (hd.loops v hl)
    · refine sees_of_cells.2 _ _ fun hc => h.mem_parameters.2 ?_
      obtain ⟨l, hget⟩ : ∃ l, r.locals.get? v = some l := ⟨_, List.getElem?_eq_getElem (h.known _ hc).2⟩
      have hkind : r.locals.kind? v = some l.kind := congrArg (Option.map _) hget
      rw [hkind] at hp hl ⊢
      cases hk : l.kind with
      | parameter => rfl
      | plain => exact absurd (congrArg some hk) hp
      | loop => exact absurd (congrArg some hk) hl

theorem scoped_declare (hd : r.Declarable) : r.declare.Scoped := by
  refine ⟨fun v hv => ?_, h.known_declare, ends_of_neat.2 _ _ h.neat_declare, List.nodup_iff_count.2 fun v => ?_,
    fun v => h.sees_declared hd⟩
  · obtain ⟨l, hl, -⟩ := Option.map_eq_some_iff.1 (h.mem_parameters.1 hv)
    exact (List.getElem?_eq_some_iff.1 hl).1
  · have honce := h.declared_once hd (v := v)
    rw [← count_declared] at honce
    exact honce

theorem scoped_of_declarable (hd : r.Declarable) : r.declare.tidy.1.Scoped :=
  (h.scoped_declare hd).tidy h.neat_declare

theorem declarable_of_scoped (hs : r.declare.tidy.1.Scoped) : r.Declarable := by
  rw [tidy_fst] at hs
  have honce (v : LocalId) : tally opened v (Node.tidy r.declare.body).1 + tally headerVars v (Node.tidy r.declare.body).1 ≤ 1 := by
    have : (r.parameters ++ (nodesOf (Node.tidy r.declare.body).1).flatMap declaredVars).count v ≤ 1 :=
      List.nodup_iff_count.1 hs.declared v
    rw [count_declared] at this
    exact Nat.le_trans (Nat.le_add_left _ _) this
  have kept {v : LocalId} (hv : 1 < tally opened v r.declare.body ∨ tally headerVars v r.declare.body ≠ 0) :
      Kept v r.declare.body (Node.tidy r.declare.body).1 := by
    rcases kept_or_gone v r.declare.body with hk | ⟨-, h1, h2⟩
    · exact hk
    · omega
  refine ⟨fun v hl hv => ?_, List.nodup_iff_count.2 fun v => ?_, fun a ha hd => List.nodup_iff_count.2 fun v => ?_⟩
  · have hheader := (h.headers v).2 hl
    rw [← headers_declare] at hheader
    have hk := kept (.inr fun h0 => List.count_eq_zero.1 h0 hheader)
    have hno : v ∉ r.parameters := fun hp => by
      rw [h.mem_parameters, hl] at hp
      cases hp
    have hsees := hk.seen (tally_opened_declare h.undeclared (by simp [hl])) _ (hs.sees v)
    rw [h.sees_declare (by simp [hl]), sees_iff_freeVars.2 _ _ h.undeclared] at hsees
    exact hno (hsees hv)
  · rw [← headers_declare]
    by_cases h0 : tally headerVars v r.declare.body = 0
    · exact Nat.le_trans (Nat.le_of_eq h0) (Nat.zero_le 1)
    · have := honce v
      rw [(kept (.inr h0)).headers] at this
      exact Nat.le_trans (Nat.le_add_left _ _) this
  · have hle : (a.targets.filterMap Expr.var?).count v ≤ tally opened v r.declare.body := by
      obtain ⟨l, l', hl⟩ := List.append_of_mem ha
      have hopened : (stmt (.assign a)).opened = a.targets.filterMap Expr.var? := if_pos hd
      rw [tally, hl, List.flatMap_append, List.flatMap_cons, hopened, List.count_append, List.count_append]
      omega
    refine Nat.le_trans hle ?_
    rcases Nat.lt_or_ge 1 (tally opened v r.declare.body) with h1 | h1
    · have := honce v
      rw [(kept (.inl h1)).opened] at this
      omega
    · exact h1

end Formed

/-- The check of a declared and tidied tree fails exactly if the tree could not be declared. -/
theorem Formed.violation?_eq_none {r : Routine} (h : r.Formed) :
    r.declare.tidy.1.violation? = none ↔ r.Declarable := by
  rw [Routine.violation?_eq_none]
  exact ⟨h.declarable_of_scoped, h.scoped_of_declarable⟩

end Routine

end LuaLift
