import LuaLift.Proofs.Tree.Scoping

namespace LuaLift

namespace Scope

variable {t : Locals} {s : Scope}

structure Demand.Explains (d : Demand) (s : Scope) (x : Checked) : Prop where
  undeclared : ∀ v, x = .error (.undeclaredLocal v) → ¬d.sees v (v ∈ s.visible)
  duplicate : ∀ v, x = .error (.duplicateDeclaration v) → 1 < s.declared.count v + d.declared.count v
  after : ∀ s', x = .ok s' → s' = s.after d.declared d.opened

namespace Demand.Explains

variable {d e : Demand} {x : Checked}

theorem congr (h : d.Explains s x) (hd : d.declared = e.declared) (ho : d.opened = e.opened)
    (hs : d.sees = e.sees) : e.Explains s x :=
  ⟨hs ▸ h.undeclared, hd ▸ h.duplicate, hd ▸ ho ▸ h.after⟩

theorem seq {f : Scope → Checked} (hd : d.Explains s x) (he : ∀ s', x = .ok s' → e.Explains s' (f s')) :
    (d.seq e).Explains s (x >>= f) := by
  cases x with
  | error err =>
    refine ⟨fun v hv hs => ?_, fun v hv => ?_, fun s' hs' => (nomatch hs')⟩
    · cases hv
      exact hd.undeclared v rfl hs.1
    · cases hv
      have := hd.duplicate v rfl
      simp only [Demand.seq, List.count_append]
      omega
  | ok s' =>
    obtain rfl := hd.after s' rfl
    have he := he _ rfl
    refine ⟨fun v hv hs => he.undeclared v hv ?_, fun v hv => ?_, fun s'' hs'' => ?_⟩
    · simpa [Scope.after, or_comm] using hs.2
    · have := he.duplicate v hv
      simp only [Scope.after, List.count_append, List.count_reverse] at this
      simp only [Demand.seq, List.count_append]
      omega
    · rw [he.after s'' hs'']
      simp [Demand.seq, Scope.after]

theorem close (h : d.Explains s x) : d.close.Explains s (x.map s.restore) := by
  cases x with
  | error err =>
    refine ⟨fun v hv => ?_, fun v hv => ?_, fun s' hs' => (nomatch hs')⟩
    · cases hv
      exact h.undeclared v rfl
    · cases hv
      exact h.duplicate v rfl
  | ok s' =>
    refine ⟨fun v hv => (nomatch hv), fun v hv => (nomatch hv), fun s'' hs'' => ?_⟩
    cases hs''
    rw [h.after s' rfl]
    rfl

theorem seq_close {f : Scope → Checked} (hd : d.Explains s x) (he : ∀ s', x = .ok s' → e.Explains s' (f s')) :
    (d.seq e).close.Explains s (x >>= fun a => (f a).map s.restore) := by
  have := (hd.seq he).close
  cases x <;> exact this

theorem ok (hd : d.declared = []) (ho : d.opened = []) : d.Explains s (.ok s) := by
  refine ⟨fun v hv => (nomatch hv), fun v hv => (nomatch hv), fun s' hs' => ?_⟩
  cases hs'
  rw [hd, ho]
  rfl

theorem other {err : Violation} (hu : ∀ v, err ≠ .undeclaredLocal v) (hd : ∀ v, err ≠ .duplicateDeclaration v) :
    d.Explains s (.error err) := by
  refine ⟨fun v hv => ?_, fun v hv => ?_, fun s' hs' => (nomatch hs')⟩
  · cases hv
    exact absurd rfl (hu v)
  · cases hv
    exact absurd rfl (hd v)

end Demand.Explains

theorem leafViolation?_undeclared {e : Expr} {v : LocalId} (h : s.leafViolation? t e = some (.undeclaredLocal v)) :
    e = .var v ∧ v ∉ s.visible := by
  cases e with
  | var w =>
    simp only [leafViolation?, useViolation?] at h
    split at h
    · cases h
    · split at h
      · cases h
      · next hw =>
        cases h
        exact ⟨rfl, by simpa using hw⟩
  | _ => cases h

theorem leafViolation?_duplicate {e : Expr} {v : LocalId} :
    s.leafViolation? t e ≠ some (.duplicateDeclaration v) := by
  intro h
  cases e with
  | var w =>
    simp only [leafViolation?, useViolation?] at h
    split at h
    · cases h
    · split at h <;> cases h
  | _ => cases h

theorem explains_evaluate (es : List Expr) : (Demand.reads es).Explains s (s.evaluate t es) := by
  have hleaf {err : Violation} (h : s.evaluate t es = .error err) :
      ∃ e ∈ Expr.nodesList es, s.leafViolation? t e = some err := by
    unfold evaluate at h
    split at h
    · next hfound =>
      cases h
      exact List.exists_of_findSome?_eq_some hfound
    · cases h
  refine ⟨fun v hv hs => ?_, fun v hv => ?_, fun s' hs' => (evaluate_eq_ok.1 hs').2.2⟩
  · obtain ⟨e, he, hviolation⟩ := hleaf hv
    obtain ⟨rfl, hv⟩ := leafViolation?_undeclared hviolation
    refine hv (hs ?_)
    rw [Expr.nodesList_eq, List.mem_flatMap] at he
    obtain ⟨a, ha, hv⟩ := he
    exact List.mem_flatMap.2 ⟨a, ha, Expr.mem_reads.2 (List.mem_filterMap.2 ⟨_, hv, rfl⟩)⟩
  · obtain ⟨e, -, hviolation⟩ := hleaf hv
    exact absurd hviolation leafViolation?_duplicate

theorem explains_declare (v : LocalId) : (Demand.declares [v]).Explains s (s.declare t v) := by
  refine ⟨fun w hw => ?_, fun w hw => ?_, fun s' hs' => (declare_eq_ok.1 hs').2.2⟩
  · unfold declare at hw
    split at hw
    · cases hw
    · split at hw <;> cases hw
  · unfold declare at hw
    split at hw
    · cases hw
    · split at hw
      · next hv =>
        cases hw
        have : 0 < s.declared.count v := List.count_pos_iff.2 (by simpa using hv)
        simp only [Demand.declares, List.count_singleton_self]
        omega
      · cases hw

theorem explains_declareAll (vs : List LocalId) : (Demand.declares vs).Explains s (s.declareAll t vs) := by
  induction vs generalizing s with
  | nil => exact .ok rfl rfl
  | cons v vs ih =>
    exact ((explains_declare v).seq fun s' _ => ih).congr rfl rfl (by simp [Demand.seq, Demand.declares])

def Demand.stores (declares : Bool) (es : List Expr) : Demand :=
  let vs := if declares then es.filterMap Expr.var? else []
  ⟨es.filterMap Expr.cell?, True, vs, vs, fun v seen => declares = false → v ∈ es.filterMap Expr.var? → seen⟩

theorem explains_store (declares : Bool) (e : Expr) :
    (Demand.stores declares [e]).Explains s (s.store t declares e) := by
  cases e with
  | slot n => exact .other (by simp) (by simp)
  | var v =>
    cases declares with
    | true =>
      refine (explains_declare v).congr ?_ ?_ ?_ <;> simp [Demand.declares, Demand.stores, Expr.var?]
    | false =>
      simp only [store, Bool.false_eq_true, if_false]
      split
      · next err herr =>
        refine ⟨fun w hw hs => ?_, fun w hw => ?_, ?_⟩
        · cases hw
          obtain ⟨he, hv⟩ := leafViolation?_undeclared (e := .var v) herr
          cases he
          exact hv (hs rfl (by simp [Expr.var?]))
        · cases hw
          exact absurd herr (leafViolation?_duplicate (e := .var v))
        · rintro _ ⟨⟩
      · exact .ok rfl rfl
  | _ => exact .ok (by simp [Demand.stores, Expr.var?]) (by simp [Demand.stores, Expr.var?])

theorem explains_storeAll (declares : Bool) (es : List Expr) :
    (Demand.stores declares es).Explains s (es.foldlM (store t declares) s) := by
  induction es generalizing s with
  | nil => exact .ok (by simp [Demand.stores]) (by simp [Demand.stores])
  | cons e es ih =>
    have hcons : (e :: es).filterMap Expr.var? = [e].filterMap Expr.var? ++ es.filterMap Expr.var? :=
      List.filterMap_append (l := [e])
    rw [List.foldlM_cons]
    refine ((explains_store declares e).seq fun s' _ => ih).congr ?_ ?_ ?_
    · cases declares <;> simp [Demand.seq, Demand.stores, hcons]
    · cases declares <;> simp [Demand.seq, Demand.stores, hcons]
    · cases declares <;> simp [Demand.seq, Demand.stores, hcons, or_imp]

theorem explains_statement (st : Stmt) : (Demand.ofStmt st).Explains s (s.statement t st) := by
  have hreads := explains_evaluate (s := s) (t := t) st.operands
  cases st with
  | assign a =>
    refine (hreads.seq fun s' _ => explains_storeAll a.declares a.targets).congr ?_ ?_ ?_
    · rfl
    · rfl
    · funext v seen
      cases hd : a.declares <;>
        simp [Demand.seq, Demand.reads, Demand.stores, Demand.ofStmt, Stmt.usedVars, Stmt.readVars, Stmt.reads,
          Expr.vars, hd, or_imp]
  | declare vs =>
    refine (hreads.seq fun s' _ => explains_declareAll vs).congr rfl rfl ?_
    funext v seen
    simp [Demand.seq, Demand.reads, Demand.declares, Demand.ofStmt, Stmt.usedVars, Stmt.readVars, Stmt.reads, Expr.vars]
  | call f as l =>
    refine (hreads.seq fun s' _ => .ok (d := Demand.declares []) rfl rfl).congr rfl rfl ?_
    funext v seen
    simp [Demand.seq, Demand.reads, Demand.declares, Demand.ofStmt, Stmt.usedVars, Stmt.readVars, Stmt.reads, Expr.vars]
  | ret vs l =>
    refine (hreads.seq fun s' _ => .ok (d := Demand.declares []) rfl rfl).congr rfl rfl ?_
    funext v seen
    simp [Demand.seq, Demand.reads, Demand.declares, Demand.ofStmt, Stmt.usedVars, Stmt.readVars, Stmt.reads, Expr.vars]

theorem explains_exit {d : Demand} (kind : ExitKind) (isLast : Bool) (hd : d.declared = []) (ho : d.opened = []) :
    d.Explains s (s.exit kind isLast) := by
  cases isLast with
  | true => exact .ok hd ho
  | false => exact .other (by simp) (by simp)

mutual

theorem explains_node {s : Scope} {inLoop isLast : Bool} : (n : Node) →
    (Demand.ofNode inLoop isLast n).Explains s (s.node t inLoop isLast n)
  | .stmt st => by
    have hst {x : Checked} (hx : (Demand.declares []).Explains s x) :
        (Demand.ofNode inLoop isLast (.stmt st)).Explains s (x >>= fun s' => s'.statement t st) := by
      refine (hx.seq fun s' _ => explains_statement st).congr ?_ ?_ ?_ <;>
        simp [Demand.seq, Demand.declares, Demand.ofStmt, Demand.ofNode, Node.declaredVars, Node.opened]
    simp only [node]
    split
    · exact hst (explains_exit _ _ rfl rfl)
    · exact hst (.ok rfl rfl)
  | .brk => by
    simp only [node]
    split
    · exact explains_exit _ _ rfl rfl
    · exact .other (by simp) (by simp)
  | .scope b => by
    rw [Demand.ofNode_scope]
    exact (explains_body b).close
  | .ifThen c b => by
    rw [Demand.ofNode_ifThen]
    exact (explains_evaluate [c]).seq fun s' _ => (explains_body b).close
  | .ifElse c a b => by
    rw [Demand.ofNode_ifElse]
    exact (explains_evaluate [c]).seq fun s' _ => (explains_body a).close.seq fun s'' _ => (explains_body b).close
  | .whileDo c b => by
    rw [Demand.ofNode_whileDo]
    exact (explains_evaluate [c]).seq fun s' _ => (explains_body b).close
  | .repeatUntil b c => by
    refine ((explains_body b).seq_close fun s' _ => explains_evaluate [c]).congr ?_ rfl ?_ <;>
      simp [Demand.ofNode, Demand.ofBody, Demand.seq, Demand.close, Demand.reads, Node.declaredVars, Node.headerVars]
  | .numericFor v x y z b => by
    rw [Demand.ofNode_numericFor]
    refine (explains_evaluate [x, y, z]).seq fun s' _ => ?_
    exact (explains_declareAll [v]).seq_close fun s'' _ => explains_body b
  | .genericFor vs es b => by
    rw [Demand.ofNode_genericFor]
    refine (explains_evaluate es).seq fun s' _ => ?_
    exact (explains_declareAll vs).seq_close fun s'' _ => explains_body b

theorem explains_body {s : Scope} {inLoop : Bool} : (b : List Node) →
    (Demand.ofBody inLoop b).Explains s (s.body t inLoop b)
  | [] => .ok rfl rfl
  | n :: rest => by
    rw [Demand.ofBody_cons]
    exact (explains_node n).seq fun s' _ => explains_body rest

end

end Scope

namespace Routine

variable {r : Routine} {v : LocalId}

theorem exists_explained (r : Routine) : ∃ x, (∀ err, r.violation? = some err → x = .error err) ∧
    ((Scope.Demand.declares r.parameters).seq (Scope.Demand.ofBody false r.body)).Explains Scope.empty x := by
  refine ⟨_, fun err herr => ?_, (Scope.explains_declareAll (t := r.locals) r.parameters).seq fun s _ =>
    Scope.explains_body (t := r.locals) r.body⟩
  simp only [violation?, check] at herr
  cases hx : Scope.empty.declareAll r.locals r.parameters with
  | error err' =>
    rw [hx] at herr
    cases herr
    rfl
  | ok s =>
    rw [hx] at herr
    change s.body r.locals false r.body = .error err
    simp only [bind, Except.bind] at herr
    cases hb : s.body r.locals false r.body with
    | error err' =>
      rw [hb] at herr
      cases herr
      rfl
    | ok s' =>
      rw [hb] at herr
      cases herr

theorem undeclared_of_violation (h : r.violation? = some (.undeclaredLocal v)) :
    ¬Node.SeesAll v (v ∈ r.parameters) r.body := by
  obtain ⟨x, hx, hexplains⟩ := r.exists_explained
  intro hs
  refine hexplains.undeclared v (hx _ h) ⟨trivial, ?_⟩
  simpa [Scope.empty, Scope.Demand.ofBody, Scope.Demand.declares] using hs

theorem duplicate_of_violation (h : r.violation? = some (.duplicateDeclaration v)) :
    1 < (r.parameters ++ (Node.nodesOf r.body).flatMap Node.declaredVars).count v := by
  obtain ⟨x, hx, hexplains⟩ := r.exists_explained
  have := hexplains.duplicate v (hx _ h)
  simpa [Scope.empty, Scope.Demand.seq, Scope.Demand.ofBody, Scope.Demand.declares] using this

end Routine

end LuaLift
