import LuaLift.Proofs.Env
import LuaLift.Proofs.Slots.Dataflow

/-!
Expressions and statements with effects, evaluated from left to right. Reads of globals, upvalues and fields
depend on the world, and calls change it together with the variables that closures have captured. Code does
the same in two environments that are alike in what it reads.
-/

namespace LuaLift

variable {V W : Type}

/-- What the parts of an expression and the ends of statements do. -/
structure Effects (V W : Type) where
  nil : V
  truthy : V → Bool
  boolean : Bool → V
  truthy_boolean : ∀ b, truthy (boolean b) = b
  constant : Constant → V
  vararg : List V
  minus : V → V
  binary : BinaryOp → V → V → V
  upvalue : Nat → W → V
  global : String → W → V
  index : V → V → W → V
  length : V → W → V
  closure : Nat → List Expr → W → V
  table : List V → List (V × V) → W → V
  call : V → List V → StateM (Env V W) (List V)
  declare : List LocalId → Env V W → Env V W
  store : V → V → V → W → W
  ret : List (List V) → W → W
  noted : List (List V) → W → W

def reading {α : Type} (g : Env V W → α) : StateM (Env V W) α := fun e => (g e, e)

namespace Effects

variable (M : Effects V W)

def first (l : List V) : V := l.headD M.nil

def spread : List (List V) → List V
  | [] => []
  | [l] => l
  | l :: m :: ls => M.first l :: spread (m :: ls)

def decided (op : BinaryOp) (x : V) : Bool :=
  match op with
  | .and => !M.truthy x
  | .or => M.truthy x
  | _ => false

def applyUnary (op : UnaryOp) (x : V) (w : W) : V :=
  match op with
  | .not => M.boolean (!M.truthy x)
  | .minus => M.minus x
  | .length => M.length x w

def applyBinary (op : BinaryOp) (x y : V) : V :=
  match op with
  | .and | .or => y
  | op => M.binary op x y

mutual

def eval : Expr → StateM (Env V W) (List V)
  | .slot s => reading fun e => [e.cell ⟨.slot, s⟩]
  | .var v => reading fun e => [e.cell ⟨.var, v⟩]
  | .upvalue n => reading fun e => [M.upvalue n e.world]
  | .global g => reading fun e => [M.global g e.world]
  | .constant k => pure [M.constant k]
  | .vararg => pure M.vararg
  | .index t k => do
    let x ← eval t
    let y ← eval k
    reading fun e => [M.index (M.first x) (M.first y) e.world]
  | .unary op a => do
    let x ← eval a
    reading fun e => [M.applyUnary op (M.first x) e.world]
  | .binary op a b => do
    let x ← eval a
    if M.decided op (M.first x) then pure [M.first x]
    else do
      let y ← eval b
      pure [M.applyBinary op (M.first x) (M.first y)]
  | .call f as => do
    let g ← eval f
    let xs ← evalEach as
    M.call (M.first g) (M.spread xs)
  | .closure p cs => reading fun e => [M.closure p cs e.world]
  | .table as rs => do
    let xs ← evalEach as
    let ys ← evalRecords rs
    reading fun e => [M.table (M.spread xs) ys e.world]

def evalEach : List Expr → StateM (Env V W) (List (List V))
  | [] => pure []
  | a :: as => do
    let x ← eval a
    let xs ← evalEach as
    pure (x :: xs)

def evalRecords : List (Expr × Expr) → StateM (Env V W) (List (V × V))
  | [] => pure []
  | (k, v) :: rs => do
    let x ← eval k
    let y ← eval v
    let ys ← evalRecords rs
    pure ((M.first x, M.first y) :: ys)

end

def place : List Expr → List (List V) → List V → Env V W → Env V W
  | [], _, _, e => e
  | .index _ _ :: targets, t :: k :: operands, xs, e =>
    place targets operands xs.tail { e with world := M.store (M.first t) (M.first k) (M.first xs) e.world }
  | t :: targets, operands, xs, e =>
    place targets operands xs.tail (t.cell?.elim e fun c => e.set c (M.first xs))

def finish (xs : List (List V)) (e : Env V W) : Stmt → Env V W
  | .assign a =>
    let n := (a.targets.flatMap Expr.targetOperands).length
    M.place a.targets (xs.take n) (M.spread (xs.drop n))
      (if a.declares then M.declare (a.targets.filterMap Expr.var?) e else e)
  | .call .. => (M.call (M.first (xs.headD [])) (M.spread xs.tail) e).2
  | .ret .. => { e with world := M.ret xs e.world }
  | .declare vs => M.declare vs e

def run (s : Stmt) (e : Env V W) : Env V W :=
  M.finish (M.evalEach s.operands e).1 (M.evalEach s.operands e).2 s

def test (c : Expr) (e : Env V W) : Bool × Env V W :=
  (M.truthy (M.first (M.eval c e).1), (M.eval c e).2)

end Effects

section Side

variable {α β : Type}

/-- From environments of a kind to environments of the kind, with the same result. -/
def Sides (P : Env V W → Env V W → Prop) (m m' : StateM (Env V W) α) : Prop :=
  ∀ e e', P e e' → (m e).1 = (m' e').1 ∧ P (m e).2 (m' e').2

variable {P : Env V W → Env V W → Prop} {m m' : StateM (Env V W) α}

theorem Sides.pure (x : α) : Sides P (pure x) (pure x) := fun _ _ h => ⟨rfl, h⟩

theorem Sides.bind {k k' : α → StateM (Env V W) β} (hm : Sides P m m') (hk : ∀ x, Sides P (k x) (k' x)) :
    Sides P (m >>= k) (m' >>= k') := by
  intro e e' h
  obtain ⟨hx, hs⟩ := hm e e' h
  have := hk (m e).1 _ _ hs
  rw [hx] at this
  have hleft : (m >>= k) e = k (m e).1 (m e).2 := rfl
  rw [hleft, hx]
  exact this

theorem Sides.reading {g g' : Env V W → α} (h : ∀ e e', P e e' → g e = g' e') :
    Sides P (reading g) (reading g') := fun e e' he => ⟨h e e' he, he⟩

end Side

namespace Effects

variable {M : Effects V W} {P : Env V W → Env V W → Prop}

structure Respects (M : Effects V W) (P : Env V W → Env V W → Prop) (calls : Prop) : Prop where
  world : ∀ {e e'}, P e e' → e.world = e'.world
  call : calls → ∀ f as, Sides P (M.call f as) (M.call f as)

variable {calls : Prop}

mutual

theorem sides_eval (hP : M.Respects P calls) : (a : Expr) → (∀ c ∈ a.cells, ∀ e e', P e e' → e.cell c = e'.cell c) →
    (∀ n ∈ a.nodes, n.isCall = true → calls) → Sides P (M.eval a) (M.eval a)
  | .slot s, hc, _ => .reading fun e e' h => by rw [hc _ (.head _) e e' h]
  | .var v, hc, _ => .reading fun e e' h => by rw [hc _ (.head _) e e' h]
  | .upvalue n, _, _ | .global g, _, _ | .closure p cs, _, _ => .reading fun e e' h => by rw [hP.world h]
  | .constant k, _, _ | .vararg, _, _ => .pure _
  | .index t k, hc, hk => by
    rw [Expr.cells_index, List.forall_mem_append] at hc
    rw [Expr.nodes, List.forall_mem_cons, List.forall_mem_append] at hk
    exact (sides_eval hP t hc.1 hk.2.1).bind fun _ => (sides_eval hP k hc.2 hk.2.2).bind fun _ =>
      .reading fun e e' h => by rw [hP.world h]
  | .unary op a, hc, hk => by
    rw [Expr.cells_unary] at hc
    rw [Expr.nodes, List.forall_mem_cons] at hk
    exact (sides_eval hP a hc hk.2).bind fun _ => .reading fun e e' h => by rw [hP.world h]
  | .binary op a b, hc, hk => by
    rw [Expr.cells_binary, List.forall_mem_append] at hc
    rw [Expr.nodes, List.forall_mem_cons, List.forall_mem_append] at hk
    refine (sides_eval hP a hc.1 hk.2.1).bind fun x => ?_
    split
    · exact .pure _
    · exact (sides_eval hP b hc.2 hk.2.2).bind fun _ => .pure _
  | .call f as, hc, hk => by
    rw [Expr.cells_call, List.forall_mem_append] at hc
    rw [Expr.nodes, List.forall_mem_cons, List.forall_mem_append] at hk
    exact (sides_eval hP f hc.1 hk.2.1).bind fun _ => (sides_evalEach hP as hc.2 hk.2.2).bind fun _ =>
      hP.call (hk.1 rfl) _ _
  | .table as rs, hc, hk => by
    rw [Expr.cells_table, List.forall_mem_append] at hc
    rw [Expr.nodes, List.forall_mem_cons, List.forall_mem_append] at hk
    exact (sides_evalEach hP as hc.1 hk.2.1).bind fun _ => (sides_evalRecords hP rs hc.2 hk.2.2).bind fun _ =>
      .reading fun e e' h => by rw [hP.world h]

theorem sides_evalEach (hP : M.Respects P calls) : (as : List Expr) → (∀ c ∈ as.flatMap Expr.cells, ∀ e e', P e e' → e.cell c = e'.cell c) →
    (∀ n ∈ Expr.nodesList as, n.isCall = true → calls) → Sides P (M.evalEach as) (M.evalEach as)
  | [], _, _ => .pure _
  | a :: as, hc, hk => by
    rw [List.flatMap_cons, List.forall_mem_append] at hc
    rw [Expr.nodesList, List.forall_mem_append] at hk
    exact (sides_eval hP a hc.1 hk.1).bind fun _ => (sides_evalEach hP as hc.2 hk.2).bind fun _ => .pure _

theorem sides_evalRecords (hP : M.Respects P calls) : (rs : List (Expr × Expr)) →
    (∀ c ∈ rs.flatMap fun r => r.1.cells ++ r.2.cells, ∀ e e', P e e' → e.cell c = e'.cell c) →
    (∀ n ∈ Expr.nodesRecords rs, n.isCall = true → calls) → Sides P (M.evalRecords rs) (M.evalRecords rs)
  | [], _, _ => .pure _
  | (k, v) :: rs, hc, hk => by
    rw [List.flatMap_cons, List.forall_mem_append, List.forall_mem_append] at hc
    rw [Expr.nodesRecords, List.forall_mem_append, List.forall_mem_append] at hk
    exact (sides_eval hP k hc.1.1 hk.1.1).bind fun _ => (sides_eval hP v hc.1.2 hk.1.2).bind fun _ =>
      (sides_evalRecords hP rs hc.2 hk.2).bind fun _ => .pure _

end

structure Replaces (M : Effects V W) (P : Env V W → Env V W → Prop) (calls : Prop) (c : Cell) (x : Expr) : Prop
    extends M.Respects P calls where
  value : Sides P (reading fun e => [e.cell c]) (M.eval x)
  other : ∀ {d}, d ≠ c → ∀ e e', P e e' → e.cell d = e'.cell d

section Substitute

variable {c : Cell} {x : Expr}

theorem Replaces.others (hP : M.Replaces P calls c x) {cs : List Cell} (h : c ∉ cs) :
    ∀ d ∈ cs, ∀ e e', P e e' → e.cell d = e'.cell d :=
  fun _ hd => hP.other fun hdc => h (hdc ▸ hd)

theorem sides_substitute_cell (hP : M.Replaces P calls c x) {a : Expr} {d : Cell} (ha : a.cell? = some d) (hone : a.cells.count c = 1)
    (heval : M.eval a = reading fun e => [e.cell d]) :
    Sides P (M.eval a) (M.eval (if c = d then ((some x).getD a, none) else (a, some x) : Expr × Option Expr).1) := by
  rw [Expr.cells_cell ha, List.count_singleton] at hone
  have hdc : d = c := by simpa using hone
  subst hdc
  rw [if_pos rfl, heval]
  exact hP.value

mutual

theorem sides_substitute (hP : M.Replaces P calls c x) : (a : Expr) → (∀ n ∈ a.nodes, n.isCall = true → calls) → a.cells.count c = 1 →
    (a.substitute c (some x)).2 = none → Sides P (M.eval a) (M.eval (a.substitute c (some x)).1)
  | .slot s, _, hone, _ => sides_substitute_cell hP (a := .slot s) rfl hone rfl
  | .var v, _, hone, _ => sides_substitute_cell hP (a := .var v) rfl hone rfl
  | .upvalue n, _, hone, _ | .global g, _, hone, _ | .constant k, _, hone, _ | .vararg, _, hone, _ => by
    cases hone
  | .closure p cs, _, _, hs => by cases hs
  | .index t k, hk, hone, hs => by
    rw [Expr.cells_index] at hone
    rw [Expr.nodes, List.forall_mem_cons, List.forall_mem_append] at hk
    rcases count_append_eq_one hone with ⟨ht, hk'⟩ | ⟨ht, hk'⟩
    · simp only [Expr.substitute, Expr.substitute_idle k (absurd · hk')] at hs ⊢
      exact (sides_substitute hP t hk.2.1 ht hs).bind fun _ =>
        (sides_eval hP.toRespects k (hP.others hk') hk.2.2).bind fun _ => .reading fun e e' h => by rw [hP.world h]
    · simp only [Expr.substitute, Expr.substitute_idle t (absurd · ht)] at hs ⊢
      exact (sides_eval hP.toRespects t (hP.others ht) hk.2.1).bind fun _ =>
        (sides_substitute hP k hk.2.2 hk' hs).bind fun _ => .reading fun e e' h => by rw [hP.world h]
  | .unary op a, hk, hone, hs => by
    rw [Expr.cells_unary] at hone
    rw [Expr.nodes, List.forall_mem_cons] at hk
    simp only [Expr.substitute] at hs ⊢
    exact (sides_substitute hP a hk.2 hone hs).bind fun _ => .reading fun e e' h => by rw [hP.world h]
  | .binary op a b, hk, hone, hs => by
    rw [Expr.cells_binary] at hone
    rw [Expr.nodes, List.forall_mem_cons, List.forall_mem_append] at hk
    rcases count_append_eq_one hone with ⟨ha, hb⟩ | ⟨ha, hb⟩
    · simp only [Expr.substitute, Expr.substitute_idle b (absurd · hb)] at hs ⊢
      refine (sides_substitute hP a hk.2.1 ha hs).bind fun x => ?_
      split
      · exact .pure _
      · exact (sides_eval hP.toRespects b (hP.others hb) hk.2.2).bind fun _ => .pure _
    · simp only [Expr.substitute, Expr.substitute_idle a (absurd · ha)] at hs ⊢
      refine (sides_eval hP.toRespects a (hP.others ha) hk.2.1).bind fun x => ?_
      split
      · exact .pure _
      · exact (sides_substitute hP b hk.2.2 hb hs).bind fun _ => .pure _
  | .call f as, hk, hone, hs => by
    rw [Expr.cells_call] at hone
    rw [Expr.nodes, List.forall_mem_cons, List.forall_mem_append] at hk
    rcases count_append_eq_one hone with ⟨hf, has⟩ | ⟨hf, has⟩
    · simp only [Expr.substitute, Expr.substituteList_idle as (absurd · has)] at hs ⊢
      exact (sides_substitute hP f hk.2.1 hf hs).bind fun _ =>
        (sides_evalEach hP.toRespects as (hP.others has) hk.2.2).bind fun _ => hP.call (hk.1 rfl) _ _
    · simp only [Expr.substitute, Expr.substitute_idle f (absurd · hf)] at hs ⊢
      exact (sides_eval hP.toRespects f (hP.others hf) hk.2.1).bind fun _ =>
        (sides_substituteList hP as hk.2.2 has hs).bind fun _ => hP.call (hk.1 rfl) _ _
  | .table as rs, hk, hone, hs => by
    rw [Expr.cells_table] at hone
    rw [Expr.nodes, List.forall_mem_cons, List.forall_mem_append] at hk
    rcases count_append_eq_one hone with ⟨has, hrs⟩ | ⟨has, hrs⟩
    · simp only [Expr.substitute, Expr.substituteRecords_idle rs (absurd · hrs)] at hs ⊢
      exact (sides_substituteList hP as hk.2.1 has hs).bind fun _ =>
        (sides_evalRecords hP.toRespects rs (hP.others hrs) hk.2.2).bind fun _ =>
          .reading fun e e' h => by rw [hP.world h]
    · simp only [Expr.substitute, Expr.substituteList_idle as (absurd · has)] at hs ⊢
      exact (sides_evalEach hP.toRespects as (hP.others has) hk.2.1).bind fun _ =>
        (sides_substituteRecords hP rs hk.2.2 hrs hs).bind fun _ => .reading fun e e' h => by rw [hP.world h]

theorem sides_substituteList (hP : M.Replaces P calls c x) : (as : List Expr) → (∀ n ∈ Expr.nodesList as, n.isCall = true → calls) →
    (as.flatMap Expr.cells).count c = 1 → (Expr.substituteList c as (some x)).2 = none →
    Sides P (M.evalEach as) (M.evalEach (Expr.substituteList c as (some x)).1)
  | [], _, hone, _ => by cases hone
  | a :: as, hk, hone, hs => by
    rw [List.flatMap_cons] at hone
    rw [Expr.nodesList, List.forall_mem_append] at hk
    rcases count_append_eq_one hone with ⟨ha, has⟩ | ⟨ha, has⟩
    · simp only [Expr.substituteList, Expr.substituteList_idle as (absurd · has)] at hs ⊢
      exact (sides_substitute hP a hk.1 ha hs).bind fun _ =>
        (sides_evalEach hP.toRespects as (hP.others has) hk.2).bind fun _ => .pure _
    · simp only [Expr.substituteList, Expr.substitute_idle a (absurd · ha)] at hs ⊢
      exact (sides_eval hP.toRespects a (hP.others ha) hk.1).bind fun _ =>
        (sides_substituteList hP as hk.2 has hs).bind fun _ => .pure _

theorem sides_substituteRecords (hP : M.Replaces P calls c x) : (rs : List (Expr × Expr)) →
    (∀ n ∈ Expr.nodesRecords rs, n.isCall = true → calls) →
    (rs.flatMap fun r => r.1.cells ++ r.2.cells).count c = 1 → (Expr.substituteRecords c rs (some x)).2 = none →
    Sides P (M.evalRecords rs) (M.evalRecords (Expr.substituteRecords c rs (some x)).1)
  | [], _, hone, _ => by cases hone
  | (k, v) :: rs, hk, hone, hs => by
    rw [List.flatMap_cons] at hone
    rw [Expr.nodesRecords, List.forall_mem_append, List.forall_mem_append] at hk
    rcases count_append_eq_one hone with ⟨hkv, hrs⟩ | ⟨hkv, hrs⟩
    · rcases count_append_eq_one hkv with ⟨hk', hv⟩ | ⟨hk', hv⟩
      · simp only [Expr.substituteRecords, Expr.substitute_idle v (absurd · hv),
          Expr.substituteRecords_idle rs (absurd · hrs)] at hs ⊢
        exact (sides_substitute hP k hk.1.1 hk' hs).bind fun _ =>
          (sides_eval hP.toRespects v (hP.others hv) hk.1.2).bind fun _ =>
            (sides_evalRecords hP.toRespects rs (hP.others hrs) hk.2).bind fun _ => .pure _
      · simp only [Expr.substituteRecords, Expr.substitute_idle k (absurd · hk'),
          Expr.substituteRecords_idle rs (absurd · hrs)] at hs ⊢
        exact (sides_eval hP.toRespects k (hP.others hk') hk.1.1).bind fun _ =>
          (sides_substitute hP v hk.1.2 hv hs).bind fun _ =>
            (sides_evalRecords hP.toRespects rs (hP.others hrs) hk.2).bind fun _ => .pure _
    · rw [List.mem_append, not_or] at hkv
      simp only [Expr.substituteRecords, Expr.substitute_idle k (absurd · hkv.1),
        Expr.substitute_idle v (absurd · hkv.2)] at hs ⊢
      exact (sides_eval hP.toRespects k (hP.others hkv.1) hk.1.1).bind fun _ =>
        (sides_eval hP.toRespects v (hP.others hkv.2) hk.1.2).bind fun _ =>
          (sides_substituteRecords hP rs hk.2 hrs hs).bind fun _ => .pure _

end

end Substitute

/-- Calls neither see nor change a hidden cell, and a declaration changes only those that it names. -/
structure Blind (M : Effects V W) (hidden : List Cell) : Prop where
  call : ∀ f as, Sides (fun e e' => e.apart hidden = e'.apart hidden) (M.call f as) (M.call f as)
  call_keeps : ∀ {c}, c ∈ hidden → ∀ f as e, (M.call f as e).2.cell c = e.cell c
  declare : ∀ vs {e e'}, e.apart hidden = e'.apart hidden →
    (M.declare vs e).apart hidden = (M.declare vs e').apart hidden
  declare_cell : ∀ {c}, c ∈ hidden → ∀ vs e,
    (M.declare vs e).cell c = if c ∈ vs.map (⟨.var, ·⟩) then M.nil else e.cell c
  declare_hidden : ∀ {vs}, (∀ v ∈ vs, ⟨.var, v⟩ ∈ hidden) → ∀ e, (M.declare vs e).apart hidden = e.apart hidden

section Blind

variable {hidden : List Cell} (hM : M.Blind hidden)
include hM

section Apart

variable {Z : List Cell} (hZ : Z ⊆ hidden)
include hZ

theorem Blind.respects : M.Respects (fun e e' => e.apart Z = e'.apart Z) True where
  world h := (Env.apart_eq_apart.1 h).2
  call _ f as e e' h := by
    obtain ⟨hvalue, hstate⟩ := hM.call f as e e' (Env.apart_mono hZ h)
    refine ⟨hvalue, Env.apart_of_keeps h hstate fun c hc _ heq => ?_⟩
    rw [hM.call_keeps hc, hM.call_keeps hc, heq]

theorem Blind.declare_apart (vs : List LocalId) {e e' : Env V W} (h : e.apart Z = e'.apart Z) :
    (M.declare vs e).apart Z = (M.declare vs e').apart Z := by
  refine Env.apart_of_keeps h (hM.declare vs (Env.apart_mono hZ h)) fun c hc _ heq => ?_
  rw [hM.declare_cell hc, hM.declare_cell hc, heq]

omit hM hZ in
theorem place_apart (ts : List Expr) (os : List (List V)) (xs : List V) {e e' : Env V W}
    (h : e.apart Z = e'.apart Z) : (M.place ts os xs e).apart Z = (M.place ts os xs e').apart Z := by
  induction ts generalizing os xs e e' with
  | nil => exact h
  | cons t ts ih =>
    have hset (c : Option Cell) : (c.elim e fun c => e.set c (M.first xs)).apart Z =
        (c.elim e' fun c => e'.set c (M.first xs)).apart Z := by
      cases c with
      | none => exact h
      | some c => exact Env.apart_set_congr h c _
    cases t with
    | index x y =>
      match os with
      | [] | [_] => exact ih _ _ (hset none)
      | _ :: _ :: _ => exact ih _ _ (Env.apart_world_congr h _)
    | _ => cases os <;> exact ih _ _ (hset _)

theorem Blind.finish_apart (s : Stmt) (xs : List (List V)) {e e' : Env V W} (h : e.apart Z = e'.apart Z) :
    (M.finish xs e s).apart Z = (M.finish xs e' s).apart Z := by
  cases s with
  | assign a =>
    refine place_apart _ _ _ ?_
    cases a.declares with
    | true => exact hM.declare_apart hZ _ h
    | false => exact h
  | call f as l => exact ((hM.respects hZ).call trivial _ _ _ _ h).2
  | ret vs l => exact Env.apart_world_congr h _
  | declare vs => exact hM.declare_apart hZ vs h

theorem Blind.run_apart {s : Stmt} (hs : ∀ c ∈ s.operands.flatMap Expr.cells, c ∉ Z) {e e' : Env V W}
    (h : e.apart Z = e'.apart Z) : (M.run s e).apart Z = (M.run s e').apart Z := by
  have hcells : ∀ c ∈ s.operands.flatMap Expr.cells, ∀ e e' : Env V W, e.apart Z = e'.apart Z →
      e.cell c = e'.cell c := fun c hc e e' h => (Env.apart_eq_apart.1 h).1 c (hs c hc)
  obtain ⟨hvalue, hstate⟩ := sides_evalEach (hM.respects hZ) _ hcells (fun _ _ _ => trivial) e e' h
  rw [run, run, hvalue]
  exact hM.finish_apart hZ s _ hstate

theorem Blind.test_apart {a : Expr} (ha : ∀ c ∈ a.cells, c ∉ Z) {e e' : Env V W} (h : e.apart Z = e'.apart Z) :
    (M.test a e).1 = (M.test a e').1 ∧ (M.test a e).2.apart Z = (M.test a e').2.apart Z := by
  have hcells : ∀ c ∈ a.cells, ∀ e e' : Env V W, e.apart Z = e'.apart Z → e.cell c = e'.cell c :=
    fun c hc e e' h => (Env.apart_eq_apart.1 h).1 c (ha c hc)
  obtain ⟨hvalue, hstate⟩ := sides_eval (hM.respects hZ) a hcells (fun _ _ _ => trivial) e e' h
  exact ⟨by rw [test, test, hvalue], hstate⟩

end Apart

end Blind

theorem eval_of_noCall {a : Expr} (h : a.hasCall = false) (e : Env V W) : (M.eval a e).2 = e := by
  have hP : M.Respects (fun e₁ e₂ => e₁ = e ∧ e₂ = e) False :=
    ⟨fun h => by rw [h.1, h.2], fun h => h.elim⟩
  have hnone : ∀ n ∈ a.nodes, n.isCall = true → False := by
    intro n hn hcall
    have := List.any_eq_false.1 h n hn
    exact this hcall
  exact (sides_eval hP a (fun d _ e₁ e₂ h => by rw [h.1, h.2]) hnone e e ⟨rfl, rfl⟩).2.1

end Effects

def Expr.steady (hidden : List Cell) : Expr → Bool
  | slot s => hidden.contains ⟨.slot, s⟩
  | var v => hidden.contains ⟨.var, v⟩
  | constant _ | vararg => true
  | unary op a => op != .length && a.steady hidden
  | binary _ a b => a.steady hidden && b.steady hidden
  | _ => false

namespace Effects

variable {M : Effects V W} {hidden : List Cell}

theorem mem_of_steady : (a : Expr) → a.steady hidden = true → ∀ c ∈ a.cells, c ∈ hidden
  | .slot s, ha, c, hc => by
    rw [List.mem_singleton.1 hc]
    simpa [Expr.steady] using ha
  | .var v, ha, c, hc => by
    rw [List.mem_singleton.1 hc]
    simpa [Expr.steady] using ha
  | .constant k, _, _, hc | .vararg, _, _, hc => by cases hc
  | .unary op a, ha, c, hc => by
    rw [Expr.cells_unary] at hc
    rw [Expr.steady, Bool.and_eq_true] at ha
    exact mem_of_steady a ha.2 c hc
  | .binary op a b, ha, c, hc => by
    rw [Expr.cells_binary, List.mem_append] at hc
    rw [Expr.steady, Bool.and_eq_true] at ha
    exact hc.elim (mem_of_steady a ha.1 c) (mem_of_steady b ha.2 c)

theorem sides_steady {P : Env V W → Env V W → Prop} : (a : Expr) → a.steady hidden = true →
    (∀ c ∈ a.cells, ∀ e e', P e e' → e.cell c = e'.cell c) → Sides P (M.eval a) (M.eval a)
  | .slot s, _, h => .reading fun e e' he => by rw [h _ (.head _) e e' he]
  | .var v, _, h => .reading fun e e' he => by rw [h _ (.head _) e e' he]
  | .constant k, _, _ | .vararg, _, _ => .pure _
  | .unary op a, ha, h => by
    rw [Expr.cells_unary] at h
    rw [Expr.steady, Bool.and_eq_true] at ha
    refine (sides_steady a ha.2 h).bind fun x => .reading fun e e' _ => ?_
    cases op with
    | length => cases ha.1
    | _ => rfl
  | .binary op a b, ha, h => by
    rw [Expr.cells_binary, List.forall_mem_append] at h
    rw [Expr.steady, Bool.and_eq_true] at ha
    refine (sides_steady a ha.1 h.1).bind fun x => ?_
    split
    · exact .pure _
    · exact (sides_steady b ha.2 h.2).bind fun _ => .pure _

variable {c : Cell} {x : Expr} {w : V}

theorem replaces_value (hM : M.Blind hidden) (hc : c ∈ hidden) (hcall : x.hasCall = false) :
    M.Replaces (fun e₁ e₂ => e₁.apart [c] = e₂.apart [c] ∧ e₁.cell c = w ∧ M.eval x e₂ = ([w], e₂))
      (x.steady hidden = true) c x where
  world h := (Env.apart_eq_apart.1 h.1).2
  call hsteady f as e₁ e₂ h := by
    obtain ⟨hvalue, hstate⟩ := (hM.respects (List.cons_subset.2 ⟨hc, List.nil_subset _⟩)).call trivial f as e₁ e₂ h.1
    have hkept : ∀ d ∈ x.cells, e₂.cell d = (M.call f as e₂).2.cell d :=
      fun d hd => (hM.call_keeps (mem_of_steady x hsteady d hd) f as e₂).symm
    have hsame := sides_steady (M := M) (P := fun e e' => ∀ d ∈ x.cells, e.cell d = e'.cell d) x hsteady
      (fun d hd _ _ h => h d hd) _ _ hkept
    refine ⟨hvalue, hstate, (hM.call_keeps hc f as e₁).trans h.2.1, Prod.ext ?_ (eval_of_noCall hcall _)⟩
    rw [← hsame.1, h.2.2]
  value e₁ e₂ h := by
    rw [h.2.2]
    exact ⟨congrArg (fun y => [y]) h.2.1, h⟩
  other hd e₁ e₂ h := (Env.apart_eq_apart.1 h.1).1 _ (by simpa using hd)

end Effects

namespace Expr

theorem substituteList_append (c : Cell) (k l : List Expr) (o : Option Expr) :
    substituteList c (k ++ l) o = ((substituteList c k o).1 ++ (substituteList c l (substituteList c k o).2).1,
      (substituteList c l (substituteList c k o).2).2) := by
  induction k generalizing o with
  | nil => rfl
  | cons a k ih => simp [substituteList, ih]

end Expr

namespace Stmt

theorem operands_substitute (c : Cell) (s : Stmt) (o : Option Expr) :
    ((s.substitute c o).1.operands, (s.substitute c o).2) = Expr.substituteList c s.operands o := by
  cases s with
  | assign a =>
    rw [operands, Expr.substituteList_append, ← targetOperands_substituteTargets]
    rfl
  | _ => rfl

end Stmt

namespace Effects

variable {M : Effects V W} {hidden : List Cell}

theorem place_congr {ts ts' : List Expr} (h : ts'.map Expr.targetFrame = ts.map Expr.targetFrame) :
    M.place ts' = M.place ts := by
  induction ts' generalizing ts with
  | nil =>
    cases ts with
    | nil => rfl
    | cons t ts => cases h
  | cons t' ts' ih =>
    cases ts with
    | nil => cases h
    | cons t ts =>
      rw [List.map_cons, List.map_cons, List.cons.injEq] at h
      have htail := ih h.2
      funext os xs e
      have hhead : t' = t ∨ ∃ a b a' b', t' = .index a' b' ∧ t = .index a b := by
        cases t' <;> cases t <;> simp_all [Expr.targetFrame]
      obtain rfl | ⟨a, b, a', b', rfl, rfl⟩ := hhead
      · cases t' with
        | index a b => rcases os with _ | ⟨o, _ | ⟨o', os⟩⟩ <;> simp only [place, htail]
        | _ => cases os <;> simp only [place, htail]
      · rcases os with _ | ⟨o, _ | ⟨o', os⟩⟩ <;> simp only [place, htail, Expr.cell?]

theorem finish_substitute (c : Cell) (s : Stmt) (o : Option Expr) (xs : List (List V)) (e : Env V W) :
    M.finish xs e (s.substitute c o).1 = M.finish xs e s := by
  cases s with
  | assign a =>
    have hplace := M.place_congr (Stmt.targetFrame_substituteTargets c a.targets o)
    have hvars := Stmt.filterMap_substituteTargets (g := Expr.var?) (fun _ _ => rfl) c a.targets o
    have hlength : ((Stmt.substituteTargets c a.targets o).1.flatMap Expr.targetOperands).length =
        (a.targets.flatMap Expr.targetOperands).length := by
      have := congrArg Prod.fst (Stmt.targetOperands_substituteTargets c a.targets o)
      simp only at this
      rw [this, Expr.length_substituteList]
    simp only [Stmt.substitute, finish, hplace, hvars, hlength]
  | _ => rfl

theorem Blind.run_substitute (hM : M.Blind hidden) {c : Cell} (hc : c ∈ hidden) {x : Expr} (hcall : x.hasCall = false)
    {s s' : Stmt} (hs : s.substitute c (some x) = (s', none)) (hone : (s.operands.flatMap Expr.cells).count c = 1)
    (hsafe : x.steady hidden = true ∨ ∀ n ∈ Expr.nodesList s.operands, n.isCall = false) {e : Env V W} {w : V}
    (hw : (M.eval x e).1 = [w]) : (M.run s (e.set c w)).apart [c] = (M.run s' e).apart [c] := by
  have hoperands := Stmt.operands_substitute c s (some x)
  rw [hs] at hoperands
  have hnone : (Expr.substituteList c s.operands (some x)).2 = none := (congrArg Prod.snd hoperands).symm
  have hcalls : ∀ n ∈ Expr.nodesList s.operands, n.isCall = true → x.steady hidden = true := by
    intro n hn hcall
    refine hsafe.resolve_right fun h => ?_
    rw [h n hn] at hcall
    cases hcall
  have hstart : (e.set c w).apart [c] = e.apart [c] ∧ (e.set c w).cell c = w ∧ M.eval x e = ([w], e) :=
    ⟨Env.apart_set (.head _), Env.cell_set_self, Prod.ext hw (eval_of_noCall hcall e)⟩
  obtain ⟨hvalues, hstate, -⟩ := sides_substituteList (replaces_value hM hc hcall) s.operands hcalls hone hnone _ _ hstart
  rw [← congrArg Prod.fst hoperands] at hvalues hstate
  have hfinish := hM.finish_apart (List.cons_subset.2 ⟨hc, List.nil_subset _⟩) s (M.evalEach s'.operands e).1 hstate
  have hsame := M.finish_substitute c s (some x) (M.evalEach s'.operands e).1 (M.evalEach s'.operands e).2
  rw [hs] at hsame
  rw [run, run, hvalues, hfinish, hsame]

/-! Effects that are all in the world: it takes down the calls. -/

def logging : Effects Nat (List (Nat × List Nat)) where
  nil := 0
  truthy x := x != 0
  boolean b := b.toNat
  truthy_boolean := by decide
  constant _ := 1
  vararg := []
  minus x := x
  binary _ x y := x + y
  upvalue n calls := n + calls.length
  global g calls := g.length + calls.length
  index t k calls := t + k + calls.length
  length x calls := x + calls.length
  closure p _ calls := p + calls.length
  table xs _ calls := xs.length + calls.length
  call f xs e := ([f], { e with world := (f, xs) :: e.world })
  declare vs e :=
    let cs := vs.map (⟨.var, ·⟩)
    e.setAll cs (cs.map fun _ => 0)
  store t k x calls := (t, [k, x]) :: calls
  ret xs calls := (0, xs.flatten) :: calls
  noted xs calls := (0, xs.flatten) :: calls

theorem blind_logging (hidden : List Cell) : logging.Blind hidden where
  call _ _ _ _ h := ⟨rfl, Env.apart_world_congr h _⟩
  call_keeps _ _ _ _ := rfl
  declare _ _ _ h := Env.apart_setAll_congr h _
  declare_cell _ vs e := Env.cell_setAll_const _ 0 e
  declare_hidden h e := Env.apart_setAll (by simpa using h) _

end Effects

end LuaLift
