import LuaLift.Proofs.Tree.Nodes
import LuaLift.Tree.Scope

namespace LuaLift

def Locals.Knows (t : Locals) (c : Cell) : Prop := c.kind = .var ∧ c.index < t.size

theorem Locals.isNone_get? {t : Locals} {v : LocalId} : (t.get? v).isNone = true ↔ ¬ v < t.size := by
  simp [get?, size]

namespace Node

mutual

@[simp] def Sees (v : LocalId) (seen : Prop) : Node → Prop
  | stmt s => v ∈ s.usedVars → seen
  | brk => True
  | scope b => SeesAll v seen b
  | ifThen c b => (v ∈ c.vars → seen) ∧ SeesAll v seen b
  | ifElse c a b => (v ∈ c.vars → seen) ∧ SeesAll v seen a ∧ SeesAll v seen b
  | whileDo c b => (v ∈ c.vars → seen) ∧ SeesAll v seen b
  | repeatUntil b c => SeesAll v seen b ∧ (v ∈ c.vars → seen ∨ v ∈ b.flatMap opened)
  | numericFor w x y z b => (v ∈ [x, y, z].flatMap (·.vars) → seen) ∧ SeesAll v (seen ∨ v ∈ [w]) b
  | genericFor ws es b => (v ∈ es.flatMap (·.vars) → seen) ∧ SeesAll v (seen ∨ v ∈ ws) b

@[simp] def SeesAll (v : LocalId) (seen : Prop) : List Node → Prop
  | [] => True
  | n :: rest => Sees v seen n ∧ SeesAll v (seen ∨ v ∈ n.opened) rest

end

theorem sees_iff {v : LocalId} {seen : Prop} {n : Node} : Sees v seen n ↔ (v ∈ n.ownUses → seen) ∧
    (∀ b ∈ n.bodies, SeesAll v (seen ∨ v ∈ n.headerVars) b) ∧
      ∀ b c, n = repeatUntil b c → v ∈ c.vars → seen ∨ v ∈ b.flatMap opened := by
  cases n <;> simp [ownUses, bodies, headerVars]

theorem sees_mono {v : LocalId} : (∀ n (seen seen' : Prop), (seen → seen') → Sees v seen n → Sees v seen' n) ∧
    ∀ b (seen seen' : Prop), (seen → seen') → SeesAll v seen b → SeesAll v seen' b := by
  refine tree_induct (fun n ih seen seen' h hn => ?_) (fun _ _ _ _ => trivial) fun n rest ihn ih seen seen' h hb => ?_
  · rw [sees_iff] at hn ⊢
    obtain ⟨hown, hinside, htest⟩ := hn
    exact ⟨fun hv => h (hown hv), fun b hb => ih b hb _ _ (Or.imp_left h) (hinside b hb),
      fun b c he hv => (htest b c he hv).imp_left h⟩
  · exact ⟨ihn _ _ h hb.1, ih _ _ (Or.imp_left h) hb.2⟩

theorem seesAll_append {v : LocalId} {seen : Prop} {a b : Body} : SeesAll v seen (a ++ b) ↔
    SeesAll v seen a ∧ SeesAll v (seen ∨ v ∈ a.flatMap opened) b := by
  induction a generalizing seen with
  | nil => simp
  | cons n a ih => simp [ih, and_assoc, or_assoc]

mutual

@[simp] def Ends (inLoop isLast : Bool) : Node → Prop
  | stmt s => s.isReturn = true → isLast = true
  | brk => inLoop = true ∧ isLast = true
  | scope b => EndsAll inLoop b
  | ifThen _ b => EndsAll inLoop b
  | ifElse _ a b => EndsAll inLoop a ∧ EndsAll inLoop b
  | whileDo _ b | repeatUntil b _ | numericFor _ _ _ _ b | genericFor _ _ b => EndsAll true b

@[simp] def EndsAll (inLoop : Bool) : List Node → Prop
  | [] => True
  | n :: rest => Ends inLoop rest.isEmpty n ∧ EndsAll inLoop rest

end

mutual

@[simp] def Neat (inLoop : Bool) : Node → Prop
  | stmt _ => True
  | brk => inLoop = true
  | scope b => NeatAll inLoop b
  | ifThen _ b => NeatAll inLoop b
  | ifElse _ a b => NeatAll inLoop a ∧ NeatAll inLoop b
  | whileDo _ b | repeatUntil b _ | numericFor _ _ _ _ b | genericFor _ _ b => NeatAll true b

@[simp] def NeatAll (inLoop : Bool) : List Node → Prop
  | [] => True
  | n :: rest => Neat inLoop n ∧ (n.isExit = true → rest = []) ∧ NeatAll inLoop rest

end

theorem neat_iff {inLoop : Bool} {n : Node} : Neat inLoop n ↔
    (n = brk → inLoop = true) ∧ ∀ b ∈ n.bodies, NeatAll (inLoop || n.isLoop) b := by
  cases n <;> simp [bodies, isLoop]

theorem ends_of_neat : (∀ n inLoop isLast, Neat inLoop n → (n.isExit = true → isLast = true) →
    Ends inLoop isLast n) ∧ ∀ b inLoop, NeatAll inLoop b → EndsAll inLoop b := by
  refine tree_induct (fun n ih inLoop isLast h hl => ?_) (fun _ _ => trivial) fun n rest ihn ih inLoop h => ?_
  · cases n with
    | stmt s => exact hl
    | brk => exact ⟨h, hl rfl⟩
    | ifElse c a b => exact ⟨ih a (.head _) _ h.1, ih b (.tail _ (.head _)) _ h.2⟩
    | _ => exact ih _ (.head _) _ h
  · refine ⟨ihn inLoop _ h.1 fun he => ?_, ih inLoop h.2.2⟩
    simp [h.2.1 he]

end Node

namespace Scope

variable {t : Locals}

theorem bind_eq_ok {ε α β : Type} {x : Except ε α} {f : α → Except ε β} {b : β} :
    (x >>= f) = .ok b ↔ ∃ a, x = .ok a ∧ f a = .ok b := by
  cases x <;> simp [bind, Except.bind]

theorem map_eq_ok {ε α β : Type} {x : Except ε α} {f : α → β} {b : β} :
    x.map f = .ok b ↔ ∃ a, x = .ok a ∧ f a = b := by
  cases x <;> simp [Except.map]

def after (s : Scope) (declared opened : List LocalId) : Scope :=
  ⟨declared.reverse ++ s.declared, opened.reverse ++ s.visible⟩

def opens (s : Scope) (vs : List LocalId) : Scope := s.after vs vs

@[simp] theorem opens_nil (s : Scope) : s.opens [] = s := rfl

theorem opens_append (s : Scope) (vs ws : List LocalId) : s.opens (vs ++ ws) = (s.opens vs).opens ws := by
  simp [opens, after]

def Fresh (declared vs : List LocalId) : Prop := vs.Nodup ∧ ∀ v ∈ vs, v ∉ declared

@[simp] theorem fresh_nil (declared : List LocalId) : Fresh declared [] := ⟨.nil, by simp⟩

theorem fresh_append {declared vs ws : List LocalId} :
    Fresh declared (vs ++ ws) ↔ Fresh declared vs ∧ Fresh (vs.reverse ++ declared) ws := by
  simp only [Fresh, List.nodup_append, List.mem_append, List.mem_reverse, not_or]
  constructor
  · rintro ⟨⟨h1, h2, h3⟩, h4⟩
    exact ⟨⟨h1, fun v hv => h4 v (.inl hv)⟩, h2, fun v hv => ⟨fun hv' => h3 v hv' v hv rfl, h4 v (.inr hv)⟩⟩
  · rintro ⟨⟨h1, h2⟩, h3, h4⟩
    refine ⟨⟨h1, h3, fun a ha b hb hab => (h4 b hb).1 (hab ▸ ha)⟩, fun v hv => ?_⟩
    exact hv.elim (h2 v) fun hv => (h4 v hv).2

theorem declare_eq_ok {s s' : Scope} {v : LocalId} :
    s.declare t v = .ok s' ↔ v < t.size ∧ v ∉ s.declared ∧ s' = s.opens [v] := by
  unfold declare
  split
  · next h => simp [Locals.isNone_get?.1 h]
  · next h =>
    have hv : v < t.size := Decidable.not_not.1 fun hn => h (Locals.isNone_get?.2 hn)
    split
    · next hd => simp only [List.contains_eq_mem, decide_eq_true_eq] at hd; simp [hd]
    · next hd =>
      simp only [List.contains_eq_mem, decide_eq_true_eq] at hd
      simp [hd, hv, opens, after, eq_comm]

theorem declareAll_eq_ok {s s' : Scope} {vs : List LocalId} :
    s.declareAll t vs = .ok s' ↔ (∀ v ∈ vs, v < t.size) ∧ Fresh s.declared vs ∧ s' = s.opens vs := by
  unfold declareAll
  induction vs generalizing s with
  | nil => simp [Fresh, pure, Except.pure, eq_comm]
  | cons v vs ih =>
    have hcons : Fresh s.declared (v :: vs) ↔ v ∉ s.declared ∧ Fresh (s.opens [v]).declared vs := by
      have : Fresh s.declared ([v] ++ vs) ↔ _ := fresh_append
      simpa [Fresh, opens, after] using this
    have hopens : s.opens (v :: vs) = (s.opens [v]).opens vs := opens_append s [v] vs
    simp only [List.foldlM_cons, bind_eq_ok, declare_eq_ok, ih, hcons, hopens, List.forall_mem_cons]
    constructor
    · rintro ⟨_, ⟨h1, h2, rfl⟩, h3, h4, h5⟩
      exact ⟨⟨h1, h3⟩, ⟨h2, h4⟩, h5⟩
    · rintro ⟨⟨h1, h3⟩, ⟨h2, h4⟩, h5⟩
      exact ⟨_, ⟨h1, h2, rfl⟩, h3, h4, h5⟩

theorem useViolation?_eq_none {s : Scope} {v : LocalId} :
    s.useViolation? t v = none ↔ v < t.size ∧ v ∈ s.visible := by
  unfold useViolation?
  split
  · next h => simp [Locals.isNone_get?.1 h]
  · next h =>
    have hv : v < t.size := Decidable.not_not.1 fun hn => h (Locals.isNone_get?.2 hn)
    split <;> simp_all

theorem leafViolation?_eq_none {s : Scope} {e : Expr} : s.leafViolation? t e = none ↔
    ∀ c, e.cell? = some c → t.Knows c ∧ c.index ∈ s.visible := by
  cases e <;> simp [leafViolation?, Expr.cell?, Locals.Knows, useViolation?_eq_none]

theorem evaluate_eq_ok {s s' : Scope} {es : List Expr} : s.evaluate t es = .ok s' ↔
    (∀ c ∈ es.flatMap Expr.cells, t.Knows c) ∧ (∀ v ∈ es.flatMap (·.vars), v ∈ s.visible) ∧ s' = s := by
  have hnone : (Expr.nodesList es).findSome? (s.leafViolation? t) = none ↔
      ∀ c ∈ es.flatMap Expr.cells, t.Knows c ∧ c.index ∈ s.visible := by
    simp only [List.findSome?_eq_none_iff, leafViolation?_eq_none, Expr.nodesList_eq, List.mem_flatMap,
      Expr.cells, List.mem_filterMap]
    constructor
    · rintro h c ⟨e, he, n, hn, hc⟩
      exact h n ⟨e, he, hn⟩ c hc
    · rintro h n ⟨e, he, hn⟩ c hc
      exact h c ⟨e, he, n, hn, hc⟩
  have hvars : (∀ c ∈ es.flatMap Expr.cells, t.Knows c ∧ c.index ∈ s.visible) ↔
      (∀ c ∈ es.flatMap Expr.cells, t.Knows c) ∧ ∀ v ∈ es.flatMap (·.vars), v ∈ s.visible := by
    simp only [List.mem_flatMap, Expr.vars, Expr.mem_reads]
    constructor
    · intro h
      exact ⟨fun c hc => (h c hc).1, fun v hv => (h _ hv).2⟩
    · rintro ⟨h1, h2⟩ ⟨kind, i⟩ hc
      obtain ⟨rfl, hi⟩ := h1 _ hc
      exact ⟨⟨rfl, hi⟩, h2 i hc⟩
  unfold evaluate
  split
  · next v h =>
    have : ¬ (Expr.nodesList es).findSome? (s.leafViolation? t) = none := by simp [h]
    rw [hnone, hvars] at this
    simp only [reduceCtorEq, false_iff]
    exact fun h => this ⟨h.1, h.2.1⟩
  · next h =>
    rw [hnone, hvars] at h
    exact ⟨fun he => ⟨h.1, h.2, (Except.ok.inj he).symm⟩, fun he => he.2.2 ▸ rfl⟩

theorem store_eq_ok {s s' : Scope} {declares : Bool} {e : Expr} : s.store t declares e = .ok s' ↔
    (∀ c ∈ e.cell?, t.Knows c) ∧
      if declares then Fresh s.declared e.var?.toList ∧ s' = s.opens e.var?.toList
      else (∀ v ∈ e.var?, v ∈ s.visible) ∧ s' = s := by
  cases e with
  | slot n => simp [store, Expr.cell?, Locals.Knows]
  | var v =>
    cases declares with
    | true => simp [store, declare_eq_ok, Expr.cell?, Expr.var?, Locals.Knows, Fresh]
    | false =>
      have : s.store t false (.var v) = .ok s' ↔ s.useViolation? t v = none ∧ s' = s := by
        simp only [store, Bool.false_eq_true, if_false]
        cases s.useViolation? t v <;> simp [eq_comm]
      rw [this, useViolation?_eq_none]
      simp [Expr.cell?, Expr.var?, Locals.Knows, and_assoc]
  | _ => cases declares <;> simp [store, Expr.cell?, Expr.var?, Fresh, eq_comm]

theorem storeAll_eq_ok {s s' : Scope} {declares : Bool} {es : List Expr} :
    es.foldlM (store t declares) s = .ok s' ↔ (∀ c ∈ es.filterMap Expr.cell?, t.Knows c) ∧
      if declares then Fresh s.declared (es.filterMap Expr.var?) ∧ s' = s.opens (es.filterMap Expr.var?)
      else (∀ v ∈ es.filterMap Expr.var?, v ∈ s.visible) ∧ s' = s := by
  have hcons {α : Type} (g : Expr → Option α) (e : Expr) (l : List Expr) :
      (e :: l).filterMap g = (g e).toList ++ l.filterMap g := by
    cases h : g e <;> simp [h]
  induction es generalizing s with
  | nil => cases declares <;> simp [pure, Except.pure, Fresh, eq_comm]
  | cons e es ih =>
    simp only [List.foldlM_cons, bind_eq_ok, store_eq_ok, ih, hcons, List.mem_append, Option.mem_toList]
    cases declares with
    | true =>
      simp only [if_true, fresh_append, opens_append]
      constructor
      · rintro ⟨_, ⟨h1, h2, rfl⟩, h3, h4, h5⟩
        exact ⟨fun c hc => hc.elim (h1 c) (h3 c), ⟨h2, h4⟩, h5⟩
      · rintro ⟨h1, ⟨h2, h4⟩, h5⟩
        exact ⟨_, ⟨fun c hc => h1 c (.inl hc), h2, rfl⟩, fun c hc => h1 c (.inr hc), h4, h5⟩
    | false =>
      simp only [Bool.false_eq_true, if_false]
      constructor
      · rintro ⟨_, ⟨h1, h2, rfl⟩, h3, h4, h5⟩
        exact ⟨fun c hc => hc.elim (h1 c) (h3 c), fun v hv => hv.elim (h2 v) (h4 v), h5⟩
      · rintro ⟨h1, h2, h5⟩
        exact ⟨_, ⟨fun c hc => h1 c (.inl hc), fun v hv => h2 v (.inl hv), rfl⟩, fun c hc => h1 c (.inr hc),
          fun v hv => h2 v (.inr hv), h5⟩

theorem statement_eq_ok {s s' : Scope} {st : Stmt} : s.statement t st = .ok s' ↔
    (∀ c ∈ st.allCells, t.Knows c) ∧ Fresh s.declared st.declaredVars ∧
      (∀ v ∈ st.usedVars, v ∈ s.visible) ∧ s' = s.opens st.declaredVars := by
  simp only [statement, bind_eq_ok, evaluate_eq_ok]
  cases st with
  | assign a =>
    simp only [storeAll_eq_ok, Stmt.allCells, Stmt.declaredVars, Stmt.usedVars, Stmt.readVars, Stmt.reads,
      Expr.vars, List.mem_append]
    cases a.declares with
    | true =>
      simp only [if_true, List.not_mem_nil, or_false]
      constructor
      · rintro ⟨_, ⟨h1, h2, rfl⟩, h3, h4, h5⟩
        exact ⟨fun c hc => hc.elim (h1 c) (h3 c), h4, h2, h5⟩
      · rintro ⟨h1, h4, h2, h5⟩
        exact ⟨_, ⟨fun c hc => h1 c (.inl hc), h2, rfl⟩, fun c hc => h1 c (.inr hc), h4, h5⟩
    | false =>
      simp only [Bool.false_eq_true, if_false, opens_nil]
      constructor
      · rintro ⟨_, ⟨h1, h2, rfl⟩, h3, h4, h5⟩
        exact ⟨fun c hc => hc.elim (h1 c) (h3 c), fresh_nil _, fun v hv => hv.elim (h2 v) (h4 v), h5⟩
      · rintro ⟨h1, -, h2, h5⟩
        exact ⟨_, ⟨fun c hc => h1 c (.inl hc), fun v hv => h2 v (.inl hv), rfl⟩, fun c hc => h1 c (.inr hc),
          fun v hv => h2 v (.inr hv), h5⟩
  | declare vs =>
    simp [declareAll_eq_ok, Stmt.operands, Stmt.allCells, Stmt.declaredVars, Stmt.usedVars, Stmt.readVars,
      Stmt.reads, Locals.Knows]
  | call f as l =>
    simp [Stmt.allCells, Stmt.declaredVars, Stmt.usedVars, Stmt.readVars, Stmt.reads, Expr.vars, pure, Except.pure, eq_comm, and_assoc]
  | ret vs l =>
    simp [Stmt.allCells, Stmt.declaredVars, Stmt.usedVars, Stmt.readVars, Stmt.reads, Expr.vars, pure, Except.pure, eq_comm, and_assoc]

theorem exit_eq_ok {s s' : Scope} {kind : ExitKind} {isLast : Bool} :
    s.exit kind isLast = .ok s' ↔ isLast = true ∧ s' = s := by
  cases isLast <;> simp [exit, eq_comm]

/-- What a part of a tree asks of the scope in front of it, and what it adds to the scope. -/
structure Demand where
  cells : List Cell
  ends : Prop
  declared : List LocalId
  opened : List LocalId
  sees : LocalId → Prop → Prop

namespace Demand

structure Met (t : Locals) (d : Demand) (s s' : Scope) : Prop where
  cells : ∀ c ∈ d.cells, t.Knows c
  ends : d.ends
  fresh : Fresh s.declared d.declared
  sees : ∀ v, d.sees v (v ∈ s.visible)
  after : s' = s.after d.declared d.opened

def reads (es : List Expr) : Demand :=
  ⟨es.flatMap Expr.cells, True, [], [], fun v seen => v ∈ es.flatMap (·.vars) → seen⟩

def declares (vs : List LocalId) : Demand := ⟨vs.map (⟨.var, ·⟩), True, vs, vs, fun _ _ => True⟩

def seq (d e : Demand) : Demand :=
  ⟨d.cells ++ e.cells, d.ends ∧ e.ends, d.declared ++ e.declared, d.opened ++ e.opened,
    fun v seen => d.sees v seen ∧ e.sees v (seen ∨ v ∈ d.opened)⟩

def close (d : Demand) : Demand := { d with opened := [] }

def ofStmt (s : Stmt) : Demand :=
  ⟨s.allCells, True, s.declaredVars, s.declaredVars, fun v seen => v ∈ s.usedVars → seen⟩

def ofNode (inLoop isLast : Bool) (n : Node) : Demand :=
  ⟨n.nodes.flatMap Node.cells, n.Ends inLoop isLast, n.nodes.flatMap Node.declaredVars, n.opened,
    fun v seen => n.Sees v seen⟩

def ofBody (inLoop : Bool) (b : Body) : Demand :=
  ⟨(Node.nodesOf b).flatMap Node.cells, Node.EndsAll inLoop b, (Node.nodesOf b).flatMap Node.declaredVars,
    b.flatMap Node.opened, fun v seen => Node.SeesAll v seen b⟩

variable {d e : Demand} {s s' : Scope}

theorem met_seq : (d.seq e).Met t s s' ↔ ∃ a, d.Met t s a ∧ e.Met t a s' := by
  have hvisible (a : LocalId) : (a ∈ (s.after d.declared d.opened).visible) = (a ∈ s.visible ∨ a ∈ d.opened) := by
    simp [Scope.after, or_comm]
  constructor
  · rintro ⟨hc, he, hf, hs, rfl⟩
    obtain ⟨hfd, hfe⟩ := fresh_append.1 hf
    refine ⟨_, ⟨fun c hcd => hc c (List.mem_append_left _ hcd), he.1, hfd, fun v => (hs v).1, rfl⟩,
      fun c hce => hc c (List.mem_append_right _ hce), he.2, hfe, fun v => ?_, by simp [seq, Scope.after]⟩
    rw [hvisible]
    exact (hs v).2
  · rintro ⟨_, ⟨hcd, hed, hfd, hsd, rfl⟩, hce, hee, hfe, hse, rfl⟩
    refine ⟨fun c hc => ?_, ⟨hed, hee⟩, fresh_append.2 ⟨hfd, hfe⟩, fun v => ⟨hsd v, ?_⟩,
      by simp [seq, Scope.after]⟩
    · exact (List.mem_append.1 hc).elim (hcd c) (hce c)
    · have := hse v
      rwa [hvisible] at this

theorem met_close : d.close.Met t s s' ↔ ∃ a, d.Met t s a ∧ s.restore a = s' := by
  constructor
  · rintro ⟨hc, he, hf, hs, rfl⟩
    exact ⟨_, ⟨hc, he, hf, hs, rfl⟩, rfl⟩
  · rintro ⟨_, ⟨hc, he, hf, hs, rfl⟩, rfl⟩
    exact ⟨hc, he, hf, hs, rfl⟩

theorem met_reads {es : List Expr} : (reads es).Met t s s' ↔ s.evaluate t es = .ok s' := by
  rw [evaluate_eq_ok]
  constructor
  · rintro ⟨hc, -, -, hs, ha⟩
    exact ⟨hc, hs, ha⟩
  · rintro ⟨hc, hs, ha⟩
    exact ⟨hc, trivial, fresh_nil _, hs, ha⟩

theorem met_declares {vs : List LocalId} : (declares vs).Met t s s' ↔ s.declareAll t vs = .ok s' := by
  rw [declareAll_eq_ok]
  constructor
  · rintro ⟨hc, -, hf, -, ha⟩
    exact ⟨fun v hv => (hc _ (List.mem_map_of_mem hv)).2, hf, ha⟩
  · rintro ⟨hc, hf, ha⟩
    refine ⟨fun c hcv => ?_, trivial, hf, fun _ => trivial, ha⟩
    obtain ⟨v, hv, rfl⟩ := List.mem_map.1 hcv
    exact ⟨rfl, hc v hv⟩

theorem met_ofStmt {st : Stmt} : (ofStmt st).Met t s s' ↔ s.statement t st = .ok s' := by
  rw [statement_eq_ok]
  constructor
  · rintro ⟨hc, -, hf, hs, ha⟩
    exact ⟨hc, hf, hs, ha⟩
  · rintro ⟨hc, hf, hs, ha⟩
    exact ⟨hc, trivial, hf, hs, ha⟩

theorem ofBody_cons (inLoop : Bool) (n : Node) (rest : Body) :
    ofBody inLoop (n :: rest) = (ofNode inLoop rest.isEmpty n).seq (ofBody inLoop rest) := by
  simp [ofBody, ofNode, seq, Node.nodesOf, Node.EndsAll, Node.SeesAll]

end Demand

namespace Demand

variable (inLoop isLast : Bool) (c x y z : Expr) (a b : Body)

theorem met_stmt {s s' : Scope} {st : Stmt} : (ofNode inLoop isLast (.stmt st)).Met t s s' ↔
    (st.isReturn = true → isLast = true) ∧ (ofStmt st).Met t s s' := by
  simp only [ofNode, ofStmt, Node.nodes, List.flatMap_singleton, Node.cells, Node.declaredVars, Node.opened,
    Node.Ends, Node.Sees]
  constructor
  · rintro ⟨hc, he, hf, hs, ha⟩
    exact ⟨he, hc, trivial, hf, hs, ha⟩
  · rintro ⟨he, hc, -, hf, hs, ha⟩
    exact ⟨hc, he, hf, hs, ha⟩

theorem met_brk {s s' : Scope} :
    (ofNode inLoop isLast .brk).Met t s s' ↔ inLoop = true ∧ isLast = true ∧ s' = s := by
  constructor
  · rintro ⟨-, he, -, -, ha⟩
    exact ⟨he.1, he.2, by simpa [ofNode, Node.declaredVars, Node.headerVars, Node.opened, after] using ha⟩
  · rintro ⟨hl, hlast, rfl⟩
    exact ⟨by simp [ofNode, Node.cells, Node.headerVars], ⟨hl, hlast⟩,
      by simp [ofNode, Node.declaredVars, Node.headerVars], fun _ => trivial,
      by simp [ofNode, Node.declaredVars, Node.headerVars, Node.opened, after]⟩

theorem ofNode_scope : ofNode inLoop isLast (.scope b) = (ofBody inLoop b).close := by
  simp [ofNode, ofBody, close, Node.cells, Node.declaredVars, Node.opened, Node.headerVars]

theorem ofNode_ifThen : ofNode inLoop isLast (.ifThen c b) = (reads [c]).seq (ofBody inLoop b).close := by
  simp [ofNode, ofBody, seq, close, reads, Node.cells, Node.declaredVars, Node.opened, Node.headerVars]

theorem ofNode_ifElse : ofNode inLoop isLast (.ifElse c a b) =
    (reads [c]).seq ((ofBody inLoop a).close.seq (ofBody inLoop b).close) := by
  simp [ofNode, ofBody, seq, close, reads, Node.cells, Node.declaredVars, Node.opened, Node.headerVars]

theorem ofNode_whileDo : ofNode inLoop isLast (.whileDo c b) = (reads [c]).seq (ofBody true b).close := by
  simp [ofNode, ofBody, seq, close, reads, Node.cells, Node.declaredVars, Node.opened, Node.headerVars]

theorem ofNode_numericFor (v : LocalId) : ofNode inLoop isLast (.numericFor v x y z b) =
    (reads [x, y, z]).seq ((declares [v]).seq (ofBody true b)).close := by
  simp [ofNode, ofBody, seq, close, reads, declares, Node.cells, Node.declaredVars, Node.opened,
    Node.headerVars]

theorem ofNode_genericFor (vs : List LocalId) (es : List Expr) : ofNode inLoop isLast (.genericFor vs es b) =
    (reads es).seq ((declares vs).seq (ofBody true b)).close := by
  simp [ofNode, ofBody, seq, close, reads, declares, Node.cells, Node.declaredVars, Node.opened,
    Node.headerVars]

variable {c} {b}

theorem met_repeatUntil {s s' : Scope} : (ofNode inLoop isLast (.repeatUntil b c)).Met t s s' ↔
    ((ofBody true b).seq (reads [c])).close.Met t s s' := by
  have hcells : (∀ d ∈ (ofNode inLoop isLast (.repeatUntil b c)).cells, t.Knows d) ↔
      ∀ d ∈ ((ofBody true b).seq (reads [c])).close.cells, t.Knows d := by
    simp only [ofNode, ofBody, seq, close, reads, Node.nodes, List.flatMap_cons, List.mem_append]
    simp [or_imp, forall_and, and_comm, Node.cells, Node.headerVars]
  have hrest : (ofNode inLoop isLast (.repeatUntil b c)).ends = (((ofBody true b).seq (reads [c])).close).ends ∧
      (ofNode inLoop isLast (.repeatUntil b c)).declared = (((ofBody true b).seq (reads [c])).close).declared ∧
      (ofNode inLoop isLast (.repeatUntil b c)).sees = (((ofBody true b).seq (reads [c])).close).sees := by
    simp [ofNode, ofBody, seq, close, reads, Node.cells, Node.declaredVars, Node.opened, Node.headerVars]
  obtain ⟨he, hd, hs⟩ := hrest
  constructor
  · rintro ⟨h1, h2, h3, h4, h5⟩
    exact ⟨hcells.1 h1, he ▸ h2, hd ▸ h3, hs ▸ h4, hd ▸ h5⟩
  · rintro ⟨h1, h2, h3, h4, h5⟩
    exact ⟨hcells.2 h1, he ▸ h2, hd ▸ h3, hs ▸ h4, hd ▸ h5⟩

end Demand

mutual

theorem node_eq_ok {s s' : Scope} {inLoop isLast : Bool} : (n : Node) →
    (s.node t inLoop isLast n = .ok s' ↔ (Demand.ofNode inLoop isLast n).Met t s s')
  | .stmt st => by
    rw [Demand.met_stmt, Demand.met_ofStmt]
    simp only [node]
    split
    · next hr =>
      simp only [bind_eq_ok, exit_eq_ok, hr, forall_const]
      exact ⟨fun ⟨_, ⟨hl, ha⟩, hst⟩ => ⟨hl, ha ▸ hst⟩, fun ⟨hl, hst⟩ => ⟨s, ⟨hl, rfl⟩, hst⟩⟩
    · next hr => simp [bind_eq_ok, hr]
  | .brk => by
    rw [Demand.met_brk]
    cases inLoop <;> simp [node, exit_eq_ok]
  | .scope b => by
    simp only [node, map_eq_ok, body_eq_ok b, Demand.ofNode_scope, Demand.met_close]
  | .ifThen c b => by
    simp only [node, bind_eq_ok, map_eq_ok, body_eq_ok b, Demand.ofNode_ifThen, Demand.met_close,
      Demand.met_seq, Demand.met_reads]
  | .ifElse c a b => by
    simp only [node, bind_eq_ok, map_eq_ok, body_eq_ok a, body_eq_ok b, Demand.ofNode_ifElse, Demand.met_close,
      Demand.met_seq, Demand.met_reads]
  | .whileDo c b => by
    simp only [node, bind_eq_ok, map_eq_ok, body_eq_ok b, Demand.ofNode_whileDo, Demand.met_close,
      Demand.met_seq, Demand.met_reads]
  | .repeatUntil b c => by
    simp only [node, bind_eq_ok, map_eq_ok, body_eq_ok b, Demand.met_repeatUntil, Demand.met_close,
      Demand.met_seq, Demand.met_reads]
    exact ⟨fun ⟨i, hi, o, ho, hr⟩ => ⟨o, ⟨i, hi, ho⟩, hr⟩, fun ⟨o, ⟨i, hi, ho⟩, hr⟩ => ⟨i, hi, o, ho, hr⟩⟩
  | .numericFor v x y z b => by
    simp only [node, bind_eq_ok, map_eq_ok, body_eq_ok b, Demand.ofNode_numericFor, Demand.met_close,
      Demand.met_seq, Demand.met_reads, Demand.met_declares]
    exact ⟨fun ⟨i, hi, o, ho, u, hu, hr⟩ => ⟨i, hi, u, ⟨o, ho, hu⟩, hr⟩,
      fun ⟨i, hi, u, ⟨o, ho, hu⟩, hr⟩ => ⟨i, hi, o, ho, u, hu, hr⟩⟩
  | .genericFor vs es b => by
    simp only [node, bind_eq_ok, map_eq_ok, body_eq_ok b, Demand.ofNode_genericFor, Demand.met_close,
      Demand.met_seq, Demand.met_reads, Demand.met_declares]
    exact ⟨fun ⟨i, hi, o, ho, u, hu, hr⟩ => ⟨i, hi, u, ⟨o, ho, hu⟩, hr⟩,
      fun ⟨i, hi, u, ⟨o, ho, hu⟩, hr⟩ => ⟨i, hi, o, ho, u, hu, hr⟩⟩

theorem body_eq_ok {s s' : Scope} {inLoop : Bool} : (b : List Node) →
    (s.body t inLoop b = .ok s' ↔ (Demand.ofBody inLoop b).Met t s s')
  | [] => by
    simp only [body, Except.ok.injEq]
    constructor
    · rintro rfl
      exact ⟨by simp [Demand.ofBody, Node.nodesOf], trivial, by simp [Demand.ofBody, Node.nodesOf],
        fun _ => trivial, rfl⟩
    · intro h
      exact h.after.symm
  | n :: rest => by
    rw [Demand.ofBody_cons, Demand.met_seq]
    simp only [body, bind_eq_ok, node_eq_ok n, body_eq_ok rest]

end

end Scope

namespace Routine

structure Scoped (r : Routine) : Prop where
  parameters : ∀ v ∈ r.parameters, v < r.locals.size
  cells : ∀ c ∈ (Node.nodesOf r.body).flatMap Node.cells, r.locals.Knows c
  ends : Node.EndsAll false r.body
  declared : (r.parameters ++ (Node.nodesOf r.body).flatMap Node.declaredVars).Nodup
  sees : ∀ v, Node.SeesAll v (v ∈ r.parameters) r.body

theorem violation?_eq_none {r : Routine} : r.violation? = none ↔ r.Scoped := by
  have hcheck : r.violation? = none ↔ ∃ u, r.check = .ok u := by
    unfold violation?
    cases r.check <;> simp
  have hmet : r.violation? = none ↔ ∃ s s', Scope.empty.declareAll r.locals r.parameters = .ok s ∧
      (Scope.Demand.ofBody false r.body).Met r.locals s s' := by
    simp only [hcheck, check, Scope.bind_eq_ok, Scope.body_eq_ok]
    exact ⟨fun ⟨_, s, hs, s', hs', _⟩ => ⟨s, s', hs, hs'⟩, fun ⟨s, s', hs, hs'⟩ => ⟨(), s, hs, s', hs', rfl⟩⟩
  have hfresh {vs : List LocalId} : Scope.Fresh Scope.empty.declared vs ↔ vs.Nodup := by
    simp [Scope.Fresh, Scope.empty]
  simp only [hmet, Scope.declareAll_eq_ok]
  constructor
  · rintro ⟨_, s', ⟨hp, hf, rfl⟩, hc, he, hd, hs, -⟩
    refine ⟨hp, hc, he, hfresh.1 (Scope.fresh_append.2 ⟨hf, hd⟩), fun v => ?_⟩
    simpa [Scope.Demand.ofBody, Scope.opens, Scope.after, Scope.empty] using hs v
  · rintro ⟨hp, hc, he, hd, hs⟩
    obtain ⟨hf, hd⟩ := Scope.fresh_append.1 (hfresh.2 hd)
    refine ⟨_, _, ⟨hp, hf, rfl⟩, hc, he, hd, fun v => ?_, rfl⟩
    simpa [Scope.Demand.ofBody, Scope.opens, Scope.after, Scope.empty] using hs v

end Routine

end LuaLift
