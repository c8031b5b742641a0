import LuaLift.Proofs.Tree.Declarable
import LuaLift.Proofs.Tree.Refusals

namespace LuaLift

namespace Node

mutual

def undeclare : Node → Node
  | stmt (.assign a) => stmt (.assign { a with declares := false })
  | stmt s => stmt s
  | brk => brk
  | scope b => scope (undeclareAll b)
  | ifThen c b => ifThen c (undeclareAll b)
  | ifElse c a b => ifElse c (undeclareAll a) (undeclareAll b)
  | whileDo c b => whileDo c (undeclareAll b)
  | repeatUntil b c => repeatUntil (undeclareAll b) c
  | numericFor v x y z b => numericFor v x y z (undeclareAll b)
  | genericFor vs es b => genericFor vs es (undeclareAll b)

def undeclareAll : List Node → List Node
  | [] => []
  | stmt (.declare _) :: rest => undeclareAll rest
  | n :: rest => undeclare n :: undeclareAll rest

end

theorem undeclareAll_cons {n : Node} (h : ∀ vs, n ≠ stmt (.declare vs)) (rest : Body) :
    undeclareAll (n :: rest) = undeclare n :: undeclareAll rest := by
  rw [undeclareAll]
  exact fun vs hn => h vs hn

@[simp] theorem undeclareAll_declaration (vs : List LocalId) (b : Body) :
    undeclareAll (declaration vs ++ b) = undeclareAll b := by
  cases vs <;> simp [declaration, undeclareAll]

theorem Behind.undeclareAll {vs : List LocalId} {n : Node} {l : Body} (h : Behind vs n l)
    (hn : ∀ s, stmt s = n → s.isDeclaration = false) (rest : Body) :
    Node.undeclareAll (l ++ rest) = undeclare n :: Node.undeclareAll rest := by
  have hdeclare (ws : List LocalId) : n ≠ stmt (.declare ws) := by
    rintro rfl
    cases hn _ rfl
  cases h with
  | plain => rw [List.append_assoc, undeclareAll_declaration, List.singleton_append, undeclareAll_cons hdeclare]
  | assign => rw [List.append_assoc, undeclareAll_declaration, List.singleton_append, undeclareAll_cons (by simp)]; rfl

theorem undeclare_declareIn (placed : List Placement) :
    (∀ n path i, Undeclared [n] → undeclare (declareIn placed path i n) = n) ∧
      ∀ b path i, Undeclared b → undeclareAll (declareFrom placed path i b) = b := by
  refine tree_induct (fun n ih path i hn => ?_) (fun path i _ => ?_) fun n rest ihn ih path i hb => ?_
  · have hbody {b : Body} (hb : b ∈ n.bodies) (path : Path) := ih b hb path 0 (hn.inside hb)
    cases n with
    | stmt s =>
      cases s with
      | assign a =>
        have ha : a.declares = false := hn.head rfl
        simp only [declareIn, undeclare, stmt.injEq, Stmt.assign.injEq]
        rw [← ha]
      | _ => rfl
    | brk => rfl
    | ifElse c a b => rw [declareIn, undeclare, hbody (.head _), hbody (.tail _ (.head _))]
    | _ => simp only [declareIn, undeclare, hbody (.head _)]
  · rw [declareFrom, ← List.append_nil (declaration _), undeclareAll_declaration, undeclareAll]
  · rw [declareFrom, (behind_due _ _).undeclareAll (by rw [declareIn_eq]; exact undeclared_withBodies hb),
      ihn path i hb.single, ih path (i + 1) hb.tail]

theorem mem_undeclare {a : Assignment} :
    (∀ n : Node, stmt (.assign a) ∈ n.nodes → stmt (.assign { a with declares := false }) ∈ (undeclare n).nodes) ∧
      ∀ b, stmt (.assign a) ∈ nodesOf b → stmt (.assign { a with declares := false }) ∈ nodesOf (undeclareAll b) := by
  refine tree_induct (fun n ih h => ?_) (fun h => by cases h) fun n rest ihn ih h => ?_
  · have hbody {b : Body} (hb : b ∈ n.bodies) := ih b hb
    cases n with
    | stmt s =>
      obtain rfl : Stmt.assign a = s := by simpa using h
      exact .head _
    | brk => simp at h
    | ifElse c a' b =>
      simp only [nodes, List.mem_cons, reduceCtorEq, false_or, List.mem_append] at h
      rw [undeclare, nodes, List.mem_cons, List.mem_append]
      exact .inr (h.imp (hbody (.head _)) (hbody (.tail _ (.head _))))
    | _ =>
      simp only [nodes, List.mem_cons, reduceCtorEq, false_or] at h
      exact .tail _ (hbody (.head _) h)
  · rw [nodesOf, List.mem_append] at h
    by_cases hn : ∃ vs, n = stmt (.declare vs)
    · obtain ⟨vs, rfl⟩ := hn
      exact ih (h.resolve_left (by simp))
    · rw [undeclareAll_cons (not_exists.1 hn), nodesOf, List.mem_append]
      exact h.imp ihn ih

section Placed

variable {placed : List Placement} {v : LocalId} {q : Position}

theorem Behind.bodies_subset {vs : List LocalId} {n : Node} {l : Body} (h : Behind vs n l) :
    n.bodies.flatMap nodesOf ⊆ nodesOf l := by
  cases h with
  | plain =>
    rw [nodesOf_append, nodesOf, nodes_eq, nodesOf, List.append_nil]
    exact fun m hm => List.mem_append_right _ (.tail _ hm)
  | assign => simp [bodies]

theorem nodesOf_declareFrom_subset {n : Node} {a : Body} {path : Path} {i j w : Nat} {b : Body} (hn : b[i]? = some n)
    (ha : n.bodies[w]? = some a) :
    nodesOf (declareFrom placed (path ++ [(j + i, w)]) 0 a) ⊆ nodesOf (declareFrom placed path j b) := by
  induction b generalizing i j with
  | nil => cases hn
  | cons m rest ih =>
    rw [declareFrom, nodesOf_append]
    cases i with
    | zero =>
      cases hn
      refine fun k hk => List.mem_append_left _ ((behind_due _ _).bodies_subset (List.mem_flatMap.2 ⟨_, ?_, hk⟩))
      rw [declareIn_eq]
      exact List.mem_of_getElem? (i := w) (by rw [getElem?_bodies_withBodies, ha]; rfl)
    | succ i =>
      have := ih (j := j + 1) (i := i) hn
      rw [Nat.add_right_comm] at this
      exact fun k hk => List.mem_append_right _ (this hk)

theorem mem_opened_of_bodyAt? (hq : PlacedAt placed v q) {sub path : Path} {b c : Body} (hb : Undeclared b)
    (hc : bodyAt? b sub = some c) (hpath : q.path = path ++ sub) (hi : q.index ≤ c.length) :
    v ∈ (nodesOf (declareFrom placed path 0 b)).flatMap opened := by
  induction sub generalizing path b with
  | nil =>
    cases hc
    have := (mem_opened_declareFrom hq hb).2 ⟨by simpa using hpath, Nat.zero_le _, by omega⟩
    obtain ⟨n, hn, hv⟩ := List.mem_flatMap.1 this
    exact List.mem_flatMap.2 ⟨n, subset_nodesOf _ hn, hv⟩
  | cons e sub ih =>
    obtain ⟨i, w⟩ := e
    unfold bodyAt? at hc
    split at hc
    · cases hc
    · next n hn =>
      split at hc
      · cases hc
      · next a ha =>
        have hinside : Undeclared a := by
          refine fun s hs => hb s (mem_nodesOf.2 ⟨n, List.mem_of_getElem? hn, ?_⟩)
          rw [nodes_eq]
          exact .tail _ (List.mem_flatMap.2 ⟨a, List.mem_of_getElem? ha, hs⟩)
        have hstep : q.path = (path ++ [(i, w)]) ++ sub := by rw [hpath, List.append_assoc, List.singleton_append]
        obtain ⟨m, hm, hv⟩ := List.mem_flatMap.1 (ih hinside hc hstep)
        refine List.mem_flatMap.2 ⟨m, nodesOf_declareFrom_subset (j := 0) hn ha ?_, hv⟩
        rwa [Nat.zero_add]

end Placed

end Node

namespace Routine

open Node

variable {r : Routine} {v : LocalId}

theorem undeclareAll_declare (hu : Undeclared r.body) : undeclareAll r.declare.body = r.body := by
  rw [body_declare]
  exact (undeclare_declareIn _).2 _ _ _ hu

theorem declaresOnce_declare (hu : Undeclared r.body)
    (hnames : ∀ a, stmt (.assign a) ∈ nodesOf r.body → (a.targets.filterMap Expr.var?).Nodup) :
    DeclaresOnce (nodesOf r.declare.body) := by
  intro a ha _
  have hbefore := mem_undeclare.2 _ ha
  rw [undeclareAll_declare hu] at hbefore
  exact hnames { a with declares := false } hbefore

theorem mem_opened_declare (hu : Undeclared r.body) (hk : r.locals.kind? v = some .plain)
    (hv : ⟨.var, v⟩ ∈ (nodesOf r.body).flatMap cells) : v ∈ (nodesOf r.declare.body).flatMap opened := by
  rw [body_declare]
  obtain ⟨q, hq⟩ := exists_placement hk hv
  obtain ⟨c, hc, hi⟩ := standing_iff.1 (placement?_spec (mem_placements hq).2).2.1
  exact mem_opened_of_bodyAt? (placedAt_placements hq) hu hc (List.nil_append _).symm (Nat.le_of_lt hi)

theorem tally_declared_plain (hu : Undeclared r.body)
    (hnames : ∀ a, stmt (.assign a) ∈ nodesOf r.body → (a.targets.filterMap Expr.var?).Nodup)
    (hheader : v ∉ (nodesOf r.body).flatMap headerVars) (hk : r.locals.kind? v = some .plain)
    (hv : ⟨.var, v⟩ ∈ (nodesOf r.body).flatMap cells) : tally declaredVars v r.declare.body = 1 := by
  have hle := Routine.tally_opened_le hu (declaresOnce_declare hu hnames) (v := v)
  have hpos : 0 < tally opened v r.declare.body := List.count_pos_iff.2 (mem_opened_declare hu hk hv)
  have hno : tally headerVars v r.declare.body = 0 := by
    rw [tally, headers_declare]
    exact List.count_eq_zero.2 hheader
  rw [tally_declaredVars, hno]
  omega

/-- Where a tree has no declarations yet, no assignment names a variable twice and no plain variable stands in
the header of a loop, each plain variable that occurs is declared exactly once, and that in front of all its uses.
The check then complains about it only where it is a parameter as well. No other variable is declared, and taking
the declarations out gives the tree back. -/
theorem declare_scopes (hu : Undeclared r.body)
    (hnames : ∀ a, stmt (.assign a) ∈ nodesOf r.body → (a.targets.filterMap Expr.var?).Nodup)
    (hheaders : ∀ v ∈ (nodesOf r.body).flatMap headerVars, r.locals.kind? v ≠ some .plain) :
    (∀ v, r.locals.kind? v = some .plain → ⟨.var, v⟩ ∈ (nodesOf r.body).flatMap cells →
      ((nodesOf r.declare.body).flatMap declaredVars).count v = 1 ∧ SeesAll v False r.declare.body ∧
        r.declare.violation? ≠ some (.undeclaredLocal v) ∧
          (v ∉ r.parameters → r.declare.violation? ≠ some (.duplicateDeclaration v))) ∧
      (∀ v ∈ (nodesOf r.declare.body).flatMap opened, r.locals.kind? v = some .plain) ∧
      undeclareAll r.declare.body = r.body := by
  refine ⟨fun v hk hv => ?_, fun v hv => ?_, undeclareAll_declare hu⟩
  · have honce := tally_declared_plain hu hnames (fun hh => hheaders v hh hk) hk hv
    have hsees := sees_plain hu hk
    refine ⟨honce, hsees, fun h => ?_, fun hp h => ?_⟩
    · exact undeclared_of_violation h (sees_mono.2 _ _ _ False.elim hsees)
    · have htwice : 1 < r.parameters.count v + tally declaredVars v r.declare.body := by
        rw [tally, ← List.count_append]
        exact duplicate_of_violation h
      rw [List.count_eq_zero.2 hp, honce] at htwice
      omega
  · exact Decidable.not_not.1 fun hk => List.count_eq_zero.1 (tally_opened_declare hu hk) hv

def looped : Routine :=
  { id := 0
    parameters := [0]
    variadic := false
    body := [
      .repeatUntil [.stmt (.assign ⟨[.var 1], [.call (.var 0) []], false, 0⟩)] (.var 1),
      .ifThen (.var 0) [.stmt (.assign ⟨[.var 2], [.var 0], false, 0⟩), .stmt (.call (.var 0) [.var 2] 0)]]
    locals := ⟨[⟨0, "f", .parameter⟩, ⟨1, "x", .plain⟩, ⟨2, "y", .plain⟩]⟩
    notes := []
    children := [] }

theorem declare_scopes_looped : looped.violation? = some (.undeclaredLocal 1) ∧
    ((nodesOf looped.declare.body).flatMap declaredVars).count 1 = 1 ∧
    undeclareAll looped.declare.body = looped.body := by
  have h := declare_scopes (r := looped) (by simp [Undeclared, looped, Stmt.isDeclaration])
    (by simp [looped, Expr.var?]) (by simp [looped, headerVars])
  exact ⟨rfl, (h.1 1 rfl (by decide)).1, h.2.2⟩

def shadowed : Routine :=
  { id := 0
    parameters := [0]
    variadic := false
    body := [.stmt (.call (.global "f") [.var 0] 0)]
    locals := ⟨[⟨0, "x", .plain⟩]⟩
    notes := []
    children := [] }

theorem shadowed_declared_twice : Undeclared shadowed.body ∧
    (∀ a, stmt (.assign a) ∈ nodesOf shadowed.body → (a.targets.filterMap Expr.var?).Nodup) ∧
    (∀ v ∈ (nodesOf shadowed.body).flatMap headerVars, shadowed.locals.kind? v ≠ some .plain) ∧
    shadowed.locals.kind? 0 = some .plain ∧ ⟨.var, 0⟩ ∈ (nodesOf shadowed.body).flatMap cells ∧
    shadowed.declare.violation? = some (.duplicateDeclaration 0) :=
  ⟨by simp [Undeclared, shadowed, Stmt.isDeclaration], by simp [shadowed], by simp [shadowed, headerVars], rfl,
    by decide, (congrArg (fun b => violation? { shadowed with body := b }) shadowed.body_declare).trans rfl⟩

end Routine

end LuaLift
