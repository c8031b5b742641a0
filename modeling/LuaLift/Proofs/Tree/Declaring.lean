import LuaLift.Proofs.Syntax.Substitution
import LuaLift.Proofs.Tree.Insertion
import LuaLift.Proofs.Tree.Scoping
import LuaLift.Proto.Check

namespace LuaLift

namespace Node

def Undeclared (b : Body) : Prop := ∀ s, stmt s ∈ nodesOf b → s.isDeclaration = false

theorem Undeclared.head {n : Node} {rest : Body} (h : Undeclared (n :: rest)) {s : Stmt} (hs : stmt s = n) :
    s.isDeclaration = false := by
  refine h s ?_
  rw [hs, nodesOf, nodes_eq]
  exact .head _

theorem Undeclared.tail {n : Node} {rest : Body} (h : Undeclared (n :: rest)) : Undeclared rest :=
  fun s hs => h s (List.mem_append_right _ hs)

theorem Undeclared.single {n : Node} {rest : Body} (h : Undeclared (n :: rest)) : Undeclared [n] :=
  fun s hs => h s (List.mem_append_left _ (by simpa using hs))

theorem Undeclared.inside {n : Node} {rest b : Body} (h : Undeclared (n :: rest)) (hb : b ∈ n.bodies) :
    Undeclared b := by
  intro s hs
  refine h s (List.mem_append_left _ ?_)
  rw [nodes_eq]
  exact .tail _ (List.mem_flatMap.2 ⟨b, hb, hs⟩)

theorem opened_of_undeclared {n : Node} (h : ∀ s, stmt s = n → s.isDeclaration = false) : n.opened = [] := by
  cases n with
  | stmt s =>
    have hs := h s rfl
    cases s with
    | assign a =>
      have : a.declares = false := hs
      simp [opened, Stmt.declaredVars, this]
    | declare vs => cases hs
    | _ => rfl
  | _ => rfl

/-- A node behind declarations of some variables, or a node that declares some of them. -/
inductive Behind (vs : List LocalId) : Node → Body → Prop
  | plain (n : Node) : Behind vs n (declaration vs ++ [n])
  | assign {a : Assignment} (h : canDeclare vs a = true) : Behind vs (stmt (.assign a))
      (declaration (vs.filter fun v => !(a.targets.filterMap Expr.var?).contains v) ++
        [stmt (.assign { a with declares := true })])

theorem behind_due (vs : List LocalId) (n : Node) :
    Behind vs n (if vs.isEmpty then [n] else declaring vs n) := by
  split
  · next h =>
    obtain rfl := List.isEmpty_iff.1 h
    exact .plain n
  · unfold declaring
    split
    · split
      · next h => exact .assign h
      · exact .plain _
    · exact .plain _

theorem opened_nodesOf_declaration (vs : List LocalId) : (nodesOf (declaration vs)).flatMap opened = vs := by
  cases vs <;> simp [declaration, opened, Stmt.declaredVars]

@[simp] theorem opened_declaration (vs : List LocalId) : (declaration vs).flatMap opened = vs := by
  cases vs <;> simp [declaration, opened, Stmt.declaredVars]

theorem sees_declaration (v : LocalId) (seen : Prop) (vs : List LocalId) : SeesAll v seen (declaration vs) := by
  cases vs <;> simp [declaration, Stmt.usedVars, Stmt.readVars, Stmt.reads, Stmt.operands]

theorem canDeclare_iff {vs : List LocalId} {a : Assignment} : canDeclare vs a = true ↔ a.declares = false ∧
    (∀ e ∈ a.targets, ∃ v ∈ vs, e = .var v) ∧ ∀ e ∈ a.values, ∀ v ∈ e.vars, v ∉ vs := by
  have hvar (e : Expr) : e.var?.any vs.contains = true ↔ ∃ v ∈ vs, e = .var v := by
    cases e <;> simp [Expr.var?]
  simp [canDeclare, hvar, and_assoc]

theorem reads_of_canDeclare {vs : List LocalId} {a : Assignment} (h : canDeclare vs a = true) {v : LocalId}
    (hv : v ∈ (Stmt.assign a).readVars) : v ∉ vs := by
  obtain ⟨-, ht, he⟩ := canDeclare_iff.1 h
  simp only [Stmt.readVars, Stmt.reads, Stmt.operands, List.flatMap_append, List.mem_append,
    List.mem_flatMap] at hv
  rcases hv with ⟨e, ⟨t, ht', hte⟩, -⟩ | ⟨e, he', hv⟩
  · obtain ⟨w, -, rfl⟩ := ht t ht'
    cases hte
  · exact he e he' v hv

theorem targets_of_canDeclare {vs : List LocalId} {a : Assignment} (h : canDeclare vs a = true) {v : LocalId}
    (hv : v ∈ a.targets.filterMap Expr.var?) : v ∈ vs := by
  obtain ⟨-, ht, -⟩ := canDeclare_iff.1 h
  obtain ⟨e, he, hev⟩ := List.mem_filterMap.1 hv
  obtain ⟨w, hw, rfl⟩ := ht e he
  cases hev
  exact hw

def DeclaresOnce (ns : List Node) : Prop :=
  ∀ a, stmt (.assign a) ∈ ns → a.declares = true → (a.targets.filterMap Expr.var?).Nodup

theorem DeclaresOnce.mono {ns ms : List Node} (h : DeclaresOnce ns) (hm : ms ⊆ ns) : DeclaresOnce ms :=
  fun a ha => h a (hm ha)

namespace Behind

variable {vs : List LocalId} {n : Node} {l : Body} (h : Behind vs n l)
include h

theorem mem_opened (hn : ∀ s, stmt s = n → s.isDeclaration = false) {v : LocalId} :
    v ∈ l.flatMap opened ↔ v ∈ vs := by
  cases h with
  | plain =>
    simp only [List.flatMap_append, opened_declaration, List.flatMap_singleton, opened_of_undeclared hn,
      List.append_nil]
  | @assign a ha =>
    have := @targets_of_canDeclare vs a ha v
    simp only [List.flatMap_append, opened_declaration, List.flatMap_singleton, opened, Stmt.declaredVars,
      if_true, List.mem_append, List.mem_filter, Bool.not_eq_true', List.contains_eq_mem,
      decide_eq_false_iff_not]
    constructor
    · rintro (h | h)
      · exact h.1
      · exact this h
    · intro hv
      by_cases ht : v ∈ a.targets.filterMap Expr.var?
      · exact .inr ht
      · exact .inl ⟨hv, ht⟩

theorem seesAll (v : LocalId) (seen : Prop) : SeesAll v seen l ↔ Sees v (seen ∨ v ∈ vs) n := by
  cases h with
  | plain => simp [seesAll_append, sees_declaration]
  | @assign a ha =>
    have htargets := @targets_of_canDeclare vs a ha v
    have hdeclares := (canDeclare_iff.1 ha).1
    have hreads := @reads_of_canDeclare vs a ha v
    have hread : ∀ d, (Stmt.assign { a with declares := d }).readVars = (Stmt.assign a).readVars := fun _ => rfl
    simp only [seesAll_append, sees_declaration, true_and, opened_declaration, SeesAll, Sees, Stmt.usedVars,
      and_true, hread, if_true, List.append_nil, hdeclares, Bool.false_eq_true, if_false, List.mem_append]
    constructor
    · rintro h (hv | hv)
      · exact (h hv).imp_right fun hw => (List.mem_filter.1 hw).1
      · exact .inr (htargets hv)
    · intro h hv
      exact (h (.inl hv)).imp_right fun hw => absurd hw (hreads hv)

theorem headerVars : (nodesOf l).flatMap Node.headerVars = n.nodes.flatMap Node.headerVars := by
  have hd (ws : List LocalId) : (nodesOf (declaration ws)).flatMap Node.headerVars = [] := by
    cases ws <;> simp [declaration, Node.headerVars]
  cases h <;> simp [nodesOf_append, hd, Node.headerVars]

theorem mem_cells {c : Cell} (hc : c ∈ (nodesOf l).flatMap Node.cells) :
    c ∈ n.nodes.flatMap Node.cells ∨ ∃ v ∈ vs, c = ⟨.var, v⟩ := by
  have hd (ws : List LocalId) : (nodesOf (declaration ws)).flatMap Node.cells = ws.map (⟨.var, ·⟩) := by
    cases ws <;> simp [declaration, Node.cells, Stmt.allCells]
  cases h with
  | plain =>
    simp only [nodesOf_append, List.flatMap_append, hd, List.mem_append, List.mem_map] at hc
    rcases hc with ⟨v, hv, rfl⟩ | hc
    · exact .inr ⟨v, hv, rfl⟩
    · exact .inl (by simpa using hc)
  | assign ha =>
    simp only [nodesOf_append, List.flatMap_append, hd, List.mem_append, List.mem_map] at hc
    rcases hc with ⟨v, hv, rfl⟩ | hc
    · exact .inr ⟨v, (List.mem_filter.1 hv).1, rfl⟩
    · exact .inl (by simpa [Node.cells, Stmt.allCells, Stmt.operands] using hc)

theorem mem_opened_nodes {v : LocalId} (hv : v ∈ (nodesOf l).flatMap opened) :
    v ∈ vs ∨ v ∈ n.nodes.flatMap opened := by
  cases h with
  | plain =>
    rw [nodesOf_append, List.flatMap_append, opened_nodesOf_declaration, List.mem_append] at hv
    exact hv.imp_right fun hv => by simpa using hv
  | assign ha =>
    rw [nodesOf_append, List.flatMap_append, opened_nodesOf_declaration, List.mem_append] at hv
    refine .inl (hv.elim (fun hv => (List.mem_filter.1 hv).1) fun hv => targets_of_canDeclare ha ?_)
    simpa [opened, Stmt.declaredVars] using hv

theorem count_opened (hn : ∀ s, stmt s = n → s.isDeclaration = false) (hvs : vs.Nodup)
    (hl : DeclaresOnce l) (v : LocalId) :
    ((nodesOf l).flatMap opened).count v = vs.count v + (n.bodies.flatMap nodesOf |>.flatMap opened).count v := by
  cases h with
  | plain =>
    simp only [nodesOf_append, List.flatMap_append, opened_nodesOf_declaration, nodesOf, nodes_eq, List.append_nil, List.flatMap_cons,
      opened_of_undeclared hn, List.nil_append, List.count_append]
  | @assign a ha =>
    have hnodup := hl { a with declares := true } (by simp) rfl
    have htargets := @targets_of_canDeclare vs a ha v
    simp only [nodesOf_append, List.flatMap_append, opened_nodesOf_declaration, nodesOf, nodes,
      List.append_nil, List.flatMap_singleton, opened, Stmt.declaredVars, if_true, bodies, List.flatMap_nil, List.count_nil, Nat.add_zero,
      List.count_append]
    by_cases ht : v ∈ a.targets.filterMap Expr.var?
    · have hf : v ∉ vs.filter fun v => !(a.targets.filterMap Expr.var?).contains v := by
        simp only [List.mem_filter, not_and]
        intro _
        simpa using ht
      rw [List.count_eq_zero_of_not_mem hf, hnodup.count, hvs.count, if_pos ht, if_pos (htargets ht)]
    · rw [List.count_eq_zero_of_not_mem ht, List.count_filter (by simpa using ht)]
      rfl

theorem declaresOnce (hl : DeclaresOnce (nodesOf l)) : DeclaresOnce n.nodes := by
  cases h with
  | plain =>
    refine hl.mono fun m hm => ?_
    rw [nodesOf_append]
    exact List.mem_append_right _ (by simpa using hm)
  | assign ha =>
    intro a' ha' hd
    simp only [nodes, List.mem_singleton, stmt.injEq, Stmt.assign.injEq] at ha'
    rw [ha', (canDeclare_iff.1 ha).1] at hd
    cases hd

theorem split : ∃ ws m, l = declaration ws ++ [m] ∧ m.isExit = n.isExit ∧
    ∀ inLoop, Neat inLoop m ↔ Neat inLoop n := by
  cases h with
  | plain => exact ⟨_, _, rfl, rfl, fun _ => .rfl⟩
  | assign => exact ⟨_, _, rfl, rfl, fun _ => .rfl⟩

end Behind

theorem neatAll_declaration {inLoop : Bool} (ws : List LocalId) (b : Body) :
    NeatAll inLoop (declaration ws ++ b) ↔ NeatAll inLoop b := by
  cases ws <;> simp [declaration, isExit, Stmt.isReturn]

theorem mem_occurAt {path : Path} {i : Nat} {vs : List LocalId} {v : LocalId} (h : v ∈ vs) :
    ⟨v, path, i⟩ ∈ occurAt path i vs :=
  List.mem_map_of_mem h

theorem mem_occurrencesIn_of_ownUses {path : Path} {i : Nat} {n : Node} {v : LocalId} (h : v ∈ n.ownUses) :
    ⟨v, path, i⟩ ∈ occurrencesIn path i n := by
  cases n with
  | stmt s =>
    refine mem_occurAt ?_
    simp only [ownVars, definedVars, expressions, List.mem_append]
    cases s with
    | assign a =>
      simp only [ownUses, Stmt.usedVars, List.mem_append] at h
      rcases h with h | h
      · exact .inr h
      · split at h
        · cases h
        · refine .inl ?_
          simpa [Stmt.writtenVars, Stmt.writes, Expr.cellOf?_var] using h
    | declare vs => exact .inr h
    | call f as l => exact .inr h
    | ret vs l => exact .inr h
  | brk => simp [ownUses] at h
  | scope b => simp [ownUses] at h
  | repeatUntil b c => simp [ownUses] at h
  | ifElse c a b =>
    exact List.mem_append_left _ (List.mem_append_left _ (mem_occurAt (by simpa [ownUses] using h)))
  | numericFor w x y z b =>
    exact List.mem_append_left _ (mem_occurAt (List.mem_append_right _ h))
  | genericFor ws es b =>
    exact List.mem_append_left _ (mem_occurAt (List.mem_append_right _ h))
  | _ => exact List.mem_append_left _ (mem_occurAt (by simpa [ownUses] using h))

theorem occurrencesFrom_subset {path : Path} {i w : Nat} {n : Node} {b : Body} (h : n.bodies[w]? = some b) :
    ∀ o ∈ occurrencesFrom (path ++ [(i, w)]) 0 b, o ∈ occurrencesIn path i n := by
  intro o ho
  rcases w with _ | _ | w <;> cases n <;> cases h <;> simp [occurrencesIn, ho]

theorem mem_occurrencesIn_of_test {path : Path} {i : Nat} {b : Body} {c : Expr} {v : LocalId} (h : v ∈ c.vars) :
    ⟨v, path ++ [(i, 0)], b.length⟩ ∈ occurrencesIn path i (repeatUntil b c) :=
  List.mem_append_right _ (mem_occurAt h)

section Walk

variable {placed : List Placement}

theorem undeclared_withBodies {n : Node} {rest : Body} {g : Nat → Body → Body} (h : Undeclared (n :: rest)) :
    ∀ s, stmt s = n.withBodies g → s.isDeclaration = false := by
  intro s hs
  refine h.head (s := s) ?_
  cases n <;> first | exact hs | cases hs

variable {v : LocalId} {q : Position}

def PlacedAt (placed : List Placement) (v : LocalId) (q : Position) : Prop :=
  ∀ path i, v ∈ dueAt placed path i ↔ q = ⟨path, i⟩

theorem mem_opened_declareFrom (hq : PlacedAt placed v q) {path : Path} {i : Nat} {b : Body}
    (hb : Undeclared b) : v ∈ (declareFrom placed path i b).flatMap opened ↔
      q.path = path ∧ i ≤ q.index ∧ q.index ≤ i + b.length := by
  have at_iff (i : Nat) : v ∈ dueAt placed path i ↔ q.path = path ∧ q.index = i := by
    rw [hq]
    constructor
    · rintro rfl
      exact ⟨rfl, rfl⟩
    · rintro ⟨rfl, rfl⟩
      rfl
  induction b generalizing i with
  | nil =>
    simp only [declareFrom, opened_declaration, at_iff, List.length_nil]
    refine and_congr_right fun _ => ?_
    omega
  | cons n rest ih =>
    have hbehind := (behind_due (dueAt placed path i) (declareIn placed path i n)).mem_opened
      (by rw [declareIn_eq]; exact undeclared_withBodies hb) (v := v)
    simp only [declareFrom, List.flatMap_append, List.mem_append, hbehind, at_iff, ih hb.tail,
      List.length_cons, ← and_or_left]
    refine and_congr_right fun _ => ?_
    omega

theorem sees_declareIn (hq : PlacedAt placed v q) :
    (∀ n path i, Undeclared [n] → (∀ o ∈ occurrencesIn path i n, o.var = v → q.Covers o.position) →
      Sees v (q.Covers ⟨path, i⟩) (declareIn placed path i n)) ∧
    ∀ b path i, Undeclared b → (∀ o ∈ occurrencesFrom path i b, o.var = v → q.Covers o.position) →
      SeesAll v (q.Passed ⟨path, i⟩) (declareFrom placed path i b) := by
  refine tree_induct (fun n ih path i hn ho => ?_) (fun path i _ _ => ?_) fun n rest ihn ih path i hb ho => ?_
  · have hinside {w : Nat} {b : Body} (hb : n.bodies[w]? = some b) : SeesAll v (q.Covers ⟨path, i⟩)
        (declareFrom placed (path ++ [(i, w)]) 0 b) := by
      have := ih b (List.mem_of_getElem? hb) (path ++ [(i, w)]) 0 (hn.inside (List.mem_of_getElem? hb))
        fun o h => ho o (occurrencesFrom_subset hb o h)
      rwa [show q.Passed ⟨path ++ [(i, w)], 0⟩ = q.Covers ⟨path, i⟩ from propext Position.passed_inside] at this
    rw [declareIn_eq, sees_iff, ownUses_withBodies, headerVars_withBodies, forall_bodies_withBodies]
    refine ⟨fun hv => ho _ (mem_occurrencesIn_of_ownUses hv) rfl, fun w b hb => ?_, fun b c he hv => ?_⟩
    · exact sees_mono.2 _ _ _ Or.inl (hinside hb)
    · cases n with
      | repeatUntil b' c' =>
        cases he
        have hcover := ho _ (mem_occurrencesIn_of_test hv) rfl
        -- Behind the body the declaration is seen if it stands in front of the loop or in the body.
        rw [mem_opened_declareFrom hq (hn.inside (List.mem_of_getElem? (i := 0) rfl))]
        by_cases hpath : q.path = path ++ [(i, 0)]
        · have := (Position.covers_of_path_eq hpath _).1 hcover
          exact .inr ⟨hpath, Nat.zero_le _, by omega⟩
        · have hne : q ≠ ⟨path ++ [(i, 0)], 0⟩ := fun h => hpath (by rw [h])
          exact .inl (Position.passed_inside.1 ⟨(Position.covers_of_path_ne hpath _ 0).1 hcover, hne⟩)
      | _ => cases he
  · exact sees_declaration _ _ _
  · rw [declareFrom, seesAll_append]
    have hbehind := behind_due (dueAt placed path i) (declareIn placed path i n)
    have hcovers : (q.Passed ⟨path, i⟩ ∨ v ∈ dueAt placed path i) = q.Covers ⟨path, i⟩ := by
      rw [hq, Position.covers_iff_passed]
    simp only [occurrencesFrom, List.forall_mem_append] at ho
    refine ⟨?_, ?_⟩
    · rw [hbehind.seesAll, hcovers]
      exact ihn path i hb.single ho.1
    · rw [hbehind.mem_opened (by rw [declareIn_eq]; exact undeclared_withBodies hb), hcovers]
      have := ih path (i + 1) hb.tail ho.2
      rwa [show q.Passed ⟨path, i + 1⟩ = q.Covers ⟨path, i⟩ from propext Position.passed_succ] at this

omit q in
theorem mem_dueAt {path : Path} {i : Nat} : v ∈ dueAt placed path i ↔ (v, ⟨path, i⟩) ∈ placed := by
  simp [dueAt]

theorem sees_declareIn_other (hv : ∀ path i, v ∉ dueAt placed path i) :
    (∀ n path i seen, Undeclared [n] → (Sees v seen (declareIn placed path i n) ↔ Sees v seen n)) ∧
      ∀ b path i seen, Undeclared b → (SeesAll v seen (declareFrom placed path i b) ↔ SeesAll v seen b) := by
  have hopened (b : Body) (path : Path) (i : Nat) (hb : Undeclared b) :
      v ∉ (declareFrom placed path i b).flatMap opened ∧ v ∉ b.flatMap opened := by
    induction b generalizing i with
    | nil => simp [declareFrom, hv]
    | cons n rest ih =>
      have hbehind := (behind_due (dueAt placed path i) (declareIn placed path i n)).mem_opened
        (by rw [declareIn_eq]; exact undeclared_withBodies hb) (v := v)
      have hn := opened_of_undeclared fun s hs => hb.head (s := s) hs
      simp only [declareFrom, List.flatMap_append, List.mem_append, hbehind, List.flatMap_cons, hn,
        List.nil_append, hv, false_or]
      exact ih (i + 1) hb.tail
  refine tree_induct (fun n ih path i seen hn => ?_) (fun path i seen _ => ?_)
    fun n rest ihn ih path i seen hb => ?_
  · have hbody {w : Nat} {b : Body} (hb : n.bodies[w]? = some b) (seen : Prop) :=
      ih b (List.mem_of_getElem? hb) (path ++ [(i, w)]) 0 seen (hn.inside (List.mem_of_getElem? hb))
    rw [declareIn_eq, sees_iff, sees_iff, ownUses_withBodies, headerVars_withBodies, forall_bodies_withBodies]
    refine and_congr_right fun _ => and_congr ?_ ?_
    · simp only [List.mem_iff_getElem?]
      constructor
      · rintro h b ⟨w, hw⟩
        exact (hbody hw _).1 (h w b hw)
      · intro h w b hw
        exact (hbody hw _).2 (h b ⟨w, hw⟩)
    · cases n with
      | repeatUntil b c =>
        have := hopened b (path ++ [(i, 0)]) 0 (hn.inside (List.mem_of_getElem? (i := 0) rfl))
        simp only [withBodies, repeatUntil.injEq, and_imp, forall_apply_eq_imp_iff, forall_eq', this.1, this.2]
      | _ => simp [withBodies]
  · simp [declareFrom, sees_declaration]
  · have hbehind := behind_due (dueAt placed path i) (declareIn placed path i n)
    have hn := opened_of_undeclared fun s hs => hb.head (s := s) hs
    have hmem := hbehind.mem_opened (by rw [declareIn_eq]; exact undeclared_withBodies hb) (v := v)
    rw [declareFrom, seesAll_append, hbehind.seesAll, SeesAll, hn]
    simp only [hmem, hv, or_false, List.not_mem_nil]
    rw [ihn path i seen hb.single, ih path (i + 1) seen hb.tail]

theorem mem_bodies_declareIn {path : Path} {i : Nat} {n : Node} {b : Body}
    (h : b ∈ (declareIn placed path i n).bodies) :
    ∃ w a, a ∈ n.bodies ∧ b = declareFrom placed (path ++ [(i, w)]) 0 a := by
  rw [declareIn_eq, List.mem_iff_getElem?] at h
  obtain ⟨w, hw⟩ := h
  rw [getElem?_bodies_withBodies, Option.map_eq_some_iff] at hw
  obtain ⟨a, ha, rfl⟩ := hw
  exact ⟨w, a, List.mem_of_getElem? ha, rfl⟩

theorem cells_declareIn {c : Cell} :
    (∀ n path i, c ∈ (declareIn placed path i n).nodes.flatMap cells →
      c ∈ n.nodes.flatMap cells ∨ ∃ p ∈ placed, c = ⟨.var, p.1⟩) ∧
    ∀ b path i, c ∈ (nodesOf (declareFrom placed path i b)).flatMap cells →
      c ∈ (nodesOf b).flatMap cells ∨ ∃ p ∈ placed, c = ⟨.var, p.1⟩ := by
  have due {vs : List LocalId} {path : Path} {i : Nat} (hvs : vs = dueAt placed path i)
      (h : ∃ v ∈ vs, c = ⟨.var, v⟩) : ∃ p ∈ placed, c = ⟨.var, p.1⟩ := by
    obtain ⟨v, hv, rfl⟩ := h
    exact ⟨(v, ⟨path, i⟩), mem_dueAt.1 (hvs ▸ hv), rfl⟩
  refine tree_induct (fun n ih path i hc => ?_) (fun path i hc => ?_) fun n rest ihn ih path i hc => ?_
  · rw [flatMap_nodes, List.mem_append] at hc ⊢
    rcases hc with hc | hc
    · rw [declareIn_eq, cells_withBodies] at hc
      exact .inl (.inl hc)
    · obtain ⟨b, hb, hc⟩ := List.mem_flatMap.1 hc
      obtain ⟨w, a, ha, rfl⟩ := mem_bodies_declareIn hb
      exact (ih a ha _ _ hc).imp_left fun h => .inr (List.mem_flatMap.2 ⟨a, ha, h⟩)
  · have := (@Behind.plain (dueAt placed path i) brk).mem_cells (c := c)
      (by rw [nodesOf_append, List.flatMap_append]; exact List.mem_append_left _ hc)
    rcases this with h | h
    · simp [cells, headerVars] at h
    · exact .inr (due rfl h)
  · rw [declareFrom, nodesOf_append, List.flatMap_append, List.mem_append] at hc
    rw [nodesOf, List.flatMap_append, List.mem_append]
    rcases hc with hc | hc
    · rcases (behind_due _ _).mem_cells hc with h | h
      · exact (ihn path i h).imp_left .inl
      · exact .inr (due rfl h)
    · exact (ih path (i + 1) hc).imp_left .inr

theorem headerVars_declareIn :
    (∀ n path i, (declareIn placed path i n).nodes.flatMap headerVars = n.nodes.flatMap headerVars) ∧
      ∀ b path i, (nodesOf (declareFrom placed path i b)).flatMap headerVars = (nodesOf b).flatMap headerVars := by
  refine tree_induct (fun n ih path i => ?_) (fun path i => ?_) fun n rest ihn ih path i => ?_
  · rw [flatMap_nodes, flatMap_nodes, declareIn_eq, headerVars_withBodies, flatMap_bodies_withBodies]
    exact fun w b hb => ih b (List.mem_of_getElem? hb) _ _
  · have := (@Behind.plain (dueAt placed path i) brk).headerVars
    simpa [nodesOf_append, headerVars, declareFrom] using this
  · rw [declareFrom, nodesOf_append, List.flatMap_append, (behind_due _ _).headerVars, ihn, ih]
    simp

theorem mem_opened_of_declareIn :
    (∀ n path i, Undeclared [n] → v ∈ (declareIn placed path i n).nodes.flatMap opened →
      ∃ q, (v, q) ∈ placed ∧ ∃ w, path ++ [(i, w)] <+: q.path) ∧
    ∀ b path i, Undeclared b → v ∈ (nodesOf (declareFrom placed path i b)).flatMap opened →
      ∃ q, (v, q) ∈ placed ∧ (⟨path, i⟩ : Position).Covers q := by
  refine tree_induct (fun n ih path i hn hv => ?_) (fun path i _ hv => ?_) fun n rest ihn ih path i hb hv => ?_
  · rw [flatMap_nodes, declareIn_eq, opened_withBodies, opened_of_undeclared fun s hs => hn.head hs,
      List.nil_append, ← declareIn_eq] at hv
    obtain ⟨b, hb, hv⟩ := List.mem_flatMap.1 hv
    obtain ⟨w, a, ha, rfl⟩ := mem_bodies_declareIn hb
    obtain ⟨q, hq, hc⟩ := ih a ha _ _ (hn.inside ha) hv
    exact ⟨q, hq, w, hc.1⟩
  · rw [declareFrom, opened_nodesOf_declaration] at hv
    exact ⟨_, mem_dueAt.1 hv, .refl _⟩
  · rw [declareFrom, nodesOf_append, List.flatMap_append, List.mem_append] at hv
    rcases hv with hv | hv
    · rcases (behind_due _ _).mem_opened_nodes hv with h | h
      · exact ⟨_, mem_dueAt.1 h, .refl _⟩
      · obtain ⟨q, hq, w, hw⟩ := ihn path i hb.single h
        exact ⟨q, hq, (Position.within_of_prefix hw).covers (Nat.le_refl i)⟩
    · obtain ⟨q, hq, hc⟩ := ih path (i + 1) hb.tail hv
      exact ⟨q, hq, hc.1, Nat.le_of_succ_le hc.2⟩

def AtMostOnce (k : Nat) (P : Prop) : Prop := k ≤ 1 ∧ (k ≠ 0 → P)

theorem AtMostOnce.add {j k : Nat} {P P' : Prop} (hj : AtMostOnce j P) (hk : AtMostOnce k P')
    (h : P → P' → False) : AtMostOnce (j + k) (P ∨ P') := by
  rcases Nat.eq_zero_or_pos j with rfl | hj0
  · rw [Nat.zero_add]
    exact ⟨hk.1, fun h0 => .inr (hk.2 h0)⟩
  · have hP := hj.2 (Nat.ne_of_gt hj0)
    have hk0 : k = 0 := Decidable.not_not.1 fun h0 => h hP (hk.2 h0)
    rw [hk0, Nat.add_zero]
    exact ⟨hj.1, fun _ => .inl hP⟩

theorem AtMostOnce.imp {k : Nat} {P P' : Prop} (hk : AtMostOnce k P) (h : P → P') : AtMostOnce k P' :=
  ⟨hk.1, fun h0 => h (hk.2 h0)⟩

theorem atMostOnce_zero (P : Prop) : AtMostOnce 0 P := ⟨Nat.zero_le _, fun h => absurd rfl h⟩

theorem nodup_dueAt (hplaced : (placed.map Prod.fst).Nodup) (path : Path) (i : Nat) :
    (dueAt placed path i).Nodup := (List.filter_sublist.map Prod.fst).nodup hplaced

theorem count_dueAt (hplaced : (placed.map Prod.fst).Nodup) (hq : PlacedAt placed v q) (path : Path) (i : Nat) :
    AtMostOnce ((dueAt placed path i).count v) (q = ⟨path, i⟩) := by
  rw [(nodup_dueAt hplaced path i).count]
  split
  · next h => exact ⟨Nat.le_refl _, fun _ => (hq path i).1 h⟩
  · exact atMostOnce_zero _

theorem declareFrom_mem_bodies {path : Path} {i w : Nat} {n : Node} {b : Body} (hb : n.bodies[w]? = some b) :
    declareFrom placed (path ++ [(i, w)]) 0 b ∈ (declareIn placed path i n).bodies := by
  refine List.mem_of_getElem? (i := w) ?_
  rw [declareIn_eq, getElem?_bodies_withBodies, hb]
  rfl

theorem count_opened_bodies {path : Path} {i : Nat} {n : Node}
    (h : ∀ w b, n.bodies[w]? = some b →
      AtMostOnce (((nodesOf (declareFrom placed (path ++ [(i, w)]) 0 b)).flatMap opened).count v)
        (path ++ [(i, w)] <+: q.path)) :
    AtMostOnce ((((declareIn placed path i n).bodies.flatMap nodesOf).flatMap opened).count v)
      (∃ w, path ++ [(i, w)] <+: q.path) := by
  cases n with
  | stmt | brk => exact atMostOnce_zero _
  | ifElse c a b =>
    have hsum := (h 0 a rfl).add (h 1 b rfl) fun h0 h1 => by
      have := (List.prefix_of_prefix_length_le h0 h1 (by simp)).eq_of_length (by simp)
      simp at this
    simp only [declareIn, bodies, List.flatMap_cons, List.flatMap_nil, List.append_nil, List.flatMap_append,
      List.count_append]
    exact hsum.imp fun h => h.elim (fun h => ⟨0, h⟩) fun h => ⟨1, h⟩
  | _ =>
    simp only [declareIn, bodies, List.flatMap_cons, List.flatMap_nil, List.append_nil]
    exact (h 0 _ rfl).imp fun h => ⟨0, h⟩

theorem count_opened_declareIn (hplaced : (placed.map Prod.fst).Nodup) (hq : PlacedAt placed v q) :
    (∀ n path i, Undeclared [n] → DeclaresOnce (declareIn placed path i n).nodes →
      AtMostOnce (((declareIn placed path i n).bodies.flatMap nodesOf).flatMap opened |>.count v)
        (∃ w, path ++ [(i, w)] <+: q.path)) ∧
    ∀ b path i, Undeclared b → DeclaresOnce (nodesOf (declareFrom placed path i b)) →
      AtMostOnce (((nodesOf (declareFrom placed path i b)).flatMap opened).count v)
        ((⟨path, i⟩ : Position).Covers q) := by
  have hone := count_dueAt hplaced hq
  refine tree_induct (fun n ih path i hn hd => ?_) (fun path i _ _ => ?_) fun n rest ihn ih path i hb hd => ?_
  · refine count_opened_bodies fun w b hb => ?_
    refine (ih b (List.mem_of_getElem? hb) _ _ (hn.inside (List.mem_of_getElem? hb)) (hd.mono ?_)).imp And.left
    intro m hm
    rw [nodes_eq]
    exact .tail _ (List.mem_flatMap.2 ⟨_, declareFrom_mem_bodies hb, hm⟩)
  · rw [declareFrom, opened_nodesOf_declaration]
    exact (hone path i).imp fun h => h ▸ .refl _
  · rw [declareFrom, nodesOf_append] at hd
    have hbehind := behind_due (dueAt placed path i) (declareIn placed path i n)
    have hdue' := hd.mono (List.subset_append_left _ _)
    have hhead := hbehind.count_opened (by rw [declareIn_eq]; exact undeclared_withBodies hb)
      (nodup_dueAt hplaced path i) (hdue'.mono (subset_nodesOf _)) v
    have hnode := ihn path i hb.single (hbehind.declaresOnce hdue')
    have hrest := ih path (i + 1) hb.tail (hd.mono (List.subset_append_right _ _))
    rw [declareFrom, nodesOf_append, List.flatMap_append, List.count_append, hhead]
    -- The position is this one, or inside the node, or further on.
    have hwithin (h : q = ⟨path, i⟩ ∨ ∃ w, path ++ [(i, w)] <+: q.path) : q.Within path i := by
      rcases h with rfl | ⟨w, hw⟩
      · exact Position.within_self path i
      · exact Position.within_of_prefix hw
    refine (((hone path i).add hnode fun h1 h2 => ?_).add hrest fun h1 h2 => ?_).imp ?_
    · obtain ⟨w, hw⟩ := h2
      have := hw.length_le
      rw [h1] at this
      simp only [List.length_append, List.length_singleton] at this
      omega
    · have hlt := h2.2
      simp only [(hwithin h1).2] at hlt
      omega
    · rintro (h | h)
      · exact (hwithin h).covers (Nat.le_refl i)
      · exact ⟨h.1, Nat.le_of_succ_le h.2⟩

theorem neat_declareIn {root : Body} (hp : ∀ p ∈ placed, Standing root p.2) :
    (∀ n path i inLoop, nodeAt? root ⟨path, i⟩ = some n → Neat inLoop n →
      Neat inLoop (declareIn placed path i n) ∧ (declareIn placed path i n).isExit = n.isExit) ∧
    ∀ (b : Body) path full i inLoop, bodyAt? root path = some full → full.drop i = b → NeatAll inLoop b →
      NeatAll inLoop (declareFrom placed path i b) ∧
        endsInExit (declareFrom placed path i b) = endsInExit b ∧ (b = [] → declareFrom placed path i b = []) := by
  refine tree_induct (fun n ih path i inLoop hn h => ?_) (fun path full i inLoop hf hb _ => ?_)
    fun n rest ihn ih path full i inLoop hf hb h => ?_
  · rw [neat_iff] at h
    have hbody {w : Nat} {b : Body} (hb : n.bodies[w]? = some b) :=
      ih b (List.mem_of_getElem? hb) (path ++ [(i, w)]) b 0 (inLoop || n.isLoop) (bodyAt?_of_nodeAt? hn hb) rfl
        (h.2 b (List.mem_of_getElem? hb))
    rw [declareIn_eq]
    refine ⟨?_, isExit_withBodies fun w b hb => (hbody hb).2.1⟩
    rw [neat_iff, forall_bodies_withBodies, isLoop_withBodies]
    refine ⟨fun he => h.1 ?_, fun w b hb => (hbody hb).1⟩
    cases n <;> first | rfl | cases he
  · have hdue : dueAt placed path i = [] := by
      refine List.eq_nil_iff_forall_not_mem.2 fun v hv => ?_
      obtain ⟨c, hc, hi⟩ := standing_iff.1 (hp _ (mem_dueAt.1 hv))
      rw [hf] at hc
      cases hc
      exact absurd hi (Nat.not_lt.2 (List.drop_eq_nil_iff.1 hb))
    rw [declareFrom, hdue]
    exact ⟨trivial, rfl, fun _ => rfl⟩
  · have hn : full[i]? = some n := by
      have : (full.drop i)[0]? = full[i]? := List.getElem?_drop
      rw [hb] at this
      exact this.symm
    have hrest : full.drop (i + 1) = rest := by
      rw [← List.drop_drop, hb]
      rfl
    obtain ⟨hneat, hexit⟩ := ihn path i inLoop (by simp [nodeAt?, hf, hn]) h.1
    obtain ⟨hneats, hexits, hnil⟩ := ih path full (i + 1) inLoop hf hrest h.2.2
    obtain ⟨ws, m, hm, hme, hmn⟩ := (behind_due (dueAt placed path i) (declareIn placed path i n)).split
    rw [declareFrom, hm, List.append_assoc, neatAll_declaration, List.singleton_append]
    refine ⟨⟨(hmn inLoop).2 hneat, fun he => hnil (h.2.1 ?_), hneats⟩, ?_, by simp⟩
    · rw [← hexit, ← hme, he]
    · rw [endsInExit_append (List.cons_ne_nil _ _)]
      cases rest with
      | nil =>
        rw [hnil rfl, endsInExit, endsInExit, hme, hexit]
      | cons n' rest =>
        rw [endsInExit_cons_cons, ← hexits]
        obtain ⟨_, _, hm', -⟩ := (behind_due (dueAt placed path (i + 1)) (declareIn placed path (i + 1) n')).split
        refine endsInExit_append (a := [m]) ?_
        simp only [hm']
        simp

end Walk

end Node

end LuaLift
