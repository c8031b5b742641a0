import LuaLift.Proofs.Tree.Declaring

namespace LuaLift

inductive Action (V : Type) where
  | stmt (s : Stmt)
  | test (condition : Expr) (holds : Bool)
  | header (es : List Expr)
  | bind (vs : List LocalId) (held : LocalId → Option V)

inductive Ending where
  | through
  | broken
  /-- The function has returned, or the run goes on for ever and is seen up to some iteration. -/
  | stopped

abbrev Runs (V : Type) := List (Action V) → Ending → Prop

variable {V : Type}

namespace Action

def undeclared : Action V → Option (Action V)
  | stmt (.declare _) => none
  | stmt (.assign a) => some (stmt (.assign { a with declares := false }))
  | a => some a

def cells : Action V → List Cell
  | stmt s => s.allCells
  | test c _ => c.cells
  | header es => es.flatMap Expr.cells
  | bind vs _ => vs.map (⟨.var, ·⟩)

def declaredVars : Action V → List LocalId
  | stmt s => s.declaredVars
  | _ => []

end Action

namespace Runs

def only (l : List (Action V)) (e : Ending) : Runs V := fun l' e' => l' = l ∧ e' = e

def does (a : Action V) : Runs V := only [a] .through

def seq (R S : Runs V) : Runs V := fun l e =>
  R l e ∧ e ≠ .through ∨ ∃ k m, R k .through ∧ S m e ∧ l = k ++ m

def either (R S : Runs V) : Runs V := fun l e => R l e ∨ S l e

inductive loop (turn out : Runs V) : Runs V
  | cut : loop turn out [] .stopped
  | leave {l} (h : out l .through) : loop turn out l .through
  | broken {l} (h : turn l .broken) : loop turn out l .through
  | stopped {l} (h : turn l .stopped) : loop turn out l .stopped
  | again {k l e} (h : turn k .through) (rest : loop turn out l e) : loop turn out (k ++ l) e

def bound (vs : List LocalId) (R : Runs V) : Runs V := fun l e => ∃ held, seq (does (.bind vs held)) R l e

def undeclared (R : Runs V) : Runs V := fun l e => ∃ k, R k e ∧ k.filterMap Action.undeclared = l

variable {R S T : Runs V}

theorem ext (h : ∀ l e, R l e ↔ S l e) : R = S := funext fun l => funext fun e => propext (h l e)

theorem only_nil_seq : seq (only [] .through) R = R := by
  refine ext fun l e => ⟨?_, fun h => .inr ⟨[], l, ⟨rfl, rfl⟩, h, rfl⟩⟩
  rintro (⟨⟨-, rfl⟩, hne⟩ | ⟨k, m, ⟨rfl, -⟩, h, rfl⟩)
  · exact absurd rfl hne
  · exact h

theorem seq_only_nil : seq R (only [] .through) = R := by
  refine ext fun l e => ⟨?_, fun h => ?_⟩
  · rintro (⟨h, -⟩ | ⟨k, m, h, ⟨rfl, rfl⟩, rfl⟩)
    · exact h
    · rwa [List.append_nil]
  · cases e with
    | through => exact .inr ⟨l, [], h, ⟨rfl, rfl⟩, (List.append_nil l).symm⟩
    | _ => exact .inl ⟨h, nofun⟩

theorem seq_assoc : seq (seq R S) T = seq R (seq S T) := by
  refine ext fun l e => ⟨?_, ?_⟩
  · rintro (⟨⟨h, hne⟩ | ⟨k, m, hk, hm, rfl⟩, hne⟩ | ⟨k, m, ⟨-, hne⟩ | ⟨k, m', hk, hm', rfl⟩, hm, rfl⟩)
    · exact .inl ⟨h, hne⟩
    · exact .inr ⟨k, m, hk, .inl ⟨hm, hne⟩, rfl⟩
    · exact absurd rfl hne
    · exact .inr ⟨k, m' ++ m, hk, .inr ⟨m', m, hm', hm, rfl⟩, List.append_assoc k m' m⟩
  · rintro (⟨h, hne⟩ | ⟨k, m, hk, ⟨hm, hne⟩ | ⟨m, n, hm, hn, rfl⟩, rfl⟩)
    · exact .inl ⟨.inl ⟨h, hne⟩, hne⟩
    · exact .inl ⟨.inr ⟨k, m, hk, hm, rfl⟩, hne⟩
    · exact .inr ⟨k ++ m, n, .inr ⟨k, m, hk, hm, rfl⟩, hn, (List.append_assoc k m n).symm⟩

theorem undeclared_only (l : List (Action V)) (e : Ending) :
    (only l e).undeclared = only (l.filterMap Action.undeclared) e := by
  refine ext fun l' e' => ⟨?_, ?_⟩
  · rintro ⟨k, ⟨rfl, rfl⟩, rfl⟩
    exact ⟨rfl, rfl⟩
  · rintro ⟨rfl, rfl⟩
    exact ⟨l, ⟨rfl, rfl⟩, rfl⟩

theorem undeclared_seq : (seq R S).undeclared = seq R.undeclared S.undeclared := by
  refine ext fun l e => ⟨?_, ?_⟩
  · rintro ⟨_, ⟨h, hne⟩ | ⟨k, m, hk, hm, rfl⟩, rfl⟩
    · exact .inl ⟨⟨_, h, rfl⟩, hne⟩
    · exact .inr ⟨_, _, ⟨k, hk, rfl⟩, ⟨m, hm, rfl⟩, List.filterMap_append⟩
  · rintro (⟨⟨k, h, rfl⟩, hne⟩ | ⟨-, -, ⟨k, hk, rfl⟩, ⟨m, hm, rfl⟩, rfl⟩)
    · exact ⟨k, .inl ⟨h, hne⟩, rfl⟩
    · exact ⟨k ++ m, .inr ⟨k, m, hk, hm, rfl⟩, List.filterMap_append⟩

theorem undeclared_either : (either R S).undeclared = either R.undeclared S.undeclared := by
  refine ext fun l e => ⟨?_, ?_⟩
  · rintro ⟨k, h | h, rfl⟩
    · exact .inl ⟨k, h, rfl⟩
    · exact .inr ⟨k, h, rfl⟩
  · rintro (⟨k, h, rfl⟩ | ⟨k, h, rfl⟩)
    · exact ⟨k, .inl h, rfl⟩
    · exact ⟨k, .inr h, rfl⟩

theorem undeclared_loop : (loop R S).undeclared = loop R.undeclared S.undeclared := by
  refine ext fun l e => ⟨?_, fun h => ?_⟩
  · rintro ⟨k, h, rfl⟩
    induction h with
    | cut => exact .cut
    | leave h => exact .leave ⟨_, h, rfl⟩
    | broken h => exact .broken ⟨_, h, rfl⟩
    | stopped h => exact .stopped ⟨_, h, rfl⟩
    | again h _ ih =>
      rw [List.filterMap_append]
      exact .again ⟨_, h, rfl⟩ ih
  · induction h with
    | cut => exact ⟨[], .cut, rfl⟩
    | leave h =>
      obtain ⟨k, h, rfl⟩ := h
      exact ⟨k, .leave h, rfl⟩
    | broken h =>
      obtain ⟨k, h, rfl⟩ := h
      exact ⟨k, .broken h, rfl⟩
    | stopped h =>
      obtain ⟨k, h, rfl⟩ := h
      exact ⟨k, .stopped h, rfl⟩
    | again h _ ih =>
      obtain ⟨k, h, rfl⟩ := h
      obtain ⟨m, hm, rfl⟩ := ih
      exact ⟨k ++ m, .again h hm, List.filterMap_append⟩

theorem undeclared_bound (vs : List LocalId) : (bound vs R).undeclared = bound vs R.undeclared := by
  have hbind (held : LocalId → Option V) : (does (.bind vs held)).undeclared = does (.bind vs held) :=
    undeclared_only _ _
  have hturn (held : LocalId → Option V) : (seq (does (.bind vs held)) R).undeclared =
      seq (does (.bind vs held)) R.undeclared := by
    rw [undeclared_seq, hbind]
  refine ext fun l e => ⟨?_, ?_⟩
  · rintro ⟨k, ⟨held, h⟩, rfl⟩
    exact ⟨held, hturn held ▸ ⟨k, h, rfl⟩⟩
  · rintro ⟨held, h⟩
    rw [← hturn held] at h
    obtain ⟨k, h, rfl⟩ := h
    exact ⟨k, ⟨held, h⟩, rfl⟩

def All (P : Action V → Prop) (R : Runs V) : Prop := ∀ l e, R l e → ∀ a ∈ l, P a

variable {P Q : Action V → Prop}

theorem All.mono (hR : All P R) (h : ∀ a, P a → Q a) : All Q R := fun l e hl a ha => h a (hR l e hl a ha)

theorem All.only {l : List (Action V)} (h : ∀ a ∈ l, P a) (e : Ending) : All P (only l e) := by
  rintro _ _ ⟨rfl, rfl⟩
  exact h

theorem All.does {a : Action V} (h : P a) : All P (does a) := .only (by simpa using h) _

theorem All.seq (hR : All P R) (hS : All P S) : All P (seq R S) := by
  rintro l e (⟨h, -⟩ | ⟨k, m, hk, hm, rfl⟩) a ha
  · exact hR l e h a ha
  · exact (List.mem_append.1 ha).elim (hR k _ hk a) (hS m e hm a)

theorem All.either (hR : All P R) (hS : All P S) : All P (either R S) :=
  fun l e h => h.elim (hR l e) (hS l e)

theorem All.loop (hR : All P R) (hS : All P S) : All P (loop R S) := by
  intro l e h
  induction h with
  | cut => simp
  | leave h => exact hS _ _ h
  | broken h | stopped h => exact hR _ _ h
  | again h _ ih => exact List.forall_mem_append.2 ⟨hR _ _ h, ih⟩

theorem All.bound {vs : List LocalId} (h : ∀ held, P (.bind vs held)) (hR : All P R) : All P (bound vs R) :=
  fun l e ⟨held, hl⟩ => (All.does (h held)).seq hR l e hl

end Runs

namespace Node

open Runs

mutual

def runs : Node → Runs V
  | stmt s => only [.stmt s] (if s.isReturn then .stopped else .through)
  | brk => only [] .broken
  | scope b => runsOf b
  | ifThen c b => either (seq (does (.test c true)) (runsOf b)) (does (.test c false))
  | ifElse c a b =>
    either (seq (does (.test c true)) (runsOf a)) (seq (does (.test c false)) (runsOf b))
  | whileDo c b => loop (seq (does (.test c true)) (runsOf b)) (does (.test c false))
  | repeatUntil b c =>
    loop (seq (runsOf b) (does (.test c false))) (seq (runsOf b) (does (.test c true)))
  | numericFor v x y z b =>
    seq (does (.header [x, y, z])) (loop (bound [v] (runsOf b)) (only [] .through))
  | genericFor vs es b => seq (does (.header es)) (loop (bound vs (runsOf b)) (only [] .through))

def runsOf : List Node → Runs V
  | [] => only [] .through
  | n :: rest => seq n.runs (runsOf rest)

end

@[simp] theorem runsOf_nil : (runsOf [] : Runs V) = only [] .through := by rw [runsOf]

theorem runsOf_cons (n : Node) (rest : Body) : (runsOf (n :: rest) : Runs V) = seq n.runs (runsOf rest) := by
  rw [runsOf]

@[simp] theorem runsOf_singleton (n : Node) : (runsOf [n] : Runs V) = n.runs := by
  rw [runsOf_cons, runsOf_nil, seq_only_nil]

theorem runsOf_append (a b : Body) : (runsOf (a ++ b) : Runs V) = seq (runsOf a) (runsOf b) := by
  induction a with
  | nil => rw [runsOf_nil, only_nil_seq, List.nil_append]
  | cons n a ih => rw [List.cons_append, runsOf_cons, runsOf_cons, ih, seq_assoc]

theorem not_through_of_isExit :
    (∀ n : Node, n.isExit = true → ∀ l : List (Action V), ¬ n.runs l .through) ∧
      ∀ b, endsInExit b = true → ∀ l : List (Action V), ¬ runsOf b l .through := by
  refine tree_induct (fun n ih hn l h => ?_) (fun h => by cases h) fun n rest ihn ih hb l h => ?_
  · cases n with
    | stmt s =>
      have hs : s.isReturn = true := hn
      obtain ⟨-, he⟩ := h
      rw [if_pos hs] at he
      cases he
    | brk => cases h.2
    | scope b => exact ih b (.head _) hn l h
    | ifElse c a b =>
      obtain ⟨ha, hb⟩ := (Bool.and_eq_true _ _).mp hn
      rcases h with h | h <;> obtain ⟨-, hne⟩ | ⟨-, m, -, hm, rfl⟩ := h
      · exact hne rfl
      · exact ih a (.head _) ha m hm
      · exact hne rfl
      · exact ih b (.tail _ (.head _)) hb m hm
    | _ => cases hn
  · rw [runsOf_cons] at h
    obtain ⟨-, hne⟩ | ⟨k, m, hk, hm, rfl⟩ := h
    · exact hne rfl
    · cases rest with
      | nil => exact ihn hb k hk
      | cons n' rest => exact ih hb m hm

mutual

def breaks : Node → Bool
  | brk => true
  | scope b | ifThen _ b => breaksOf b
  | ifElse _ a b => breaksOf a || breaksOf b
  | _ => false

def breaksOf : List Node → Bool
  | [] => false
  | n :: rest => n.breaks || breaksOf rest

end

theorem breaks_of_broken :
    (∀ (n : Node) (l : List (Action V)), n.runs l .broken → n.breaks = true) ∧
      ∀ (b : Body) (l : List (Action V)), runsOf b l .broken → breaksOf b = true := by
  have through {turn out : Runs V} {l : List (Action V)} {e : Ending} (h : loop turn out l e) : e ≠ .broken := by
    induction h with
    | again _ _ ih => exact ih
    | _ => nofun
  have behind {a : Action V} {R : Runs V} {l : List (Action V)} (h : seq (does a) R l .broken) :
      ∃ m, R m .broken := by
    obtain ⟨⟨-, he⟩, -⟩ | ⟨-, m, -, hm, -⟩ := h
    · cases he
    · exact ⟨m, hm⟩
  refine tree_induct (fun n ih l h => ?_) (fun l h => nomatch h.2) fun n rest ihn ih l h => ?_
  · cases n with
    | stmt s =>
      obtain ⟨-, he⟩ := h
      split at he <;> cases he
    | brk => rfl
    | scope b => exact ih b (.head _) l h
    | ifThen c b =>
      rcases h with h | h
      · obtain ⟨m, hm⟩ := behind h
        exact ih b (.head _) m hm
      · cases h.2
    | ifElse c a b =>
      rcases h with h | h <;> obtain ⟨m, hm⟩ := behind h
      · exact Bool.or_eq_true_iff.2 (.inl (ih a (.head _) m hm))
      · exact Bool.or_eq_true_iff.2 (.inr (ih b (.tail _ (.head _)) m hm))
    | whileDo c b | repeatUntil b c => exact absurd rfl (through h)
    | numericFor v x y z b | genericFor vs es b =>
      obtain ⟨m, hm⟩ := behind h
      exact absurd rfl (through hm)
  · rw [runsOf_cons] at h
    rw [breaksOf, Bool.or_eq_true]
    obtain ⟨h, -⟩ | ⟨-, m, -, hm, -⟩ := h
    · exact .inl (ihn l h)
    · exact .inr (ih m hm)

inductive Acts : Node → Action V → Prop
  | stmt (s : Stmt) : Acts (stmt s) (.stmt s)
  | test {n : Node} {c : Expr} (h : n.condition? = some c) (holds : Bool) : Acts n (.test c holds)
  | header (n : Node) : Acts n (.header n.expressions)
  | bind (n : Node) (held : LocalId → Option V) : Acts n (.bind n.headerVars held)

theorem acts_of_runs :
    (∀ n : Node, All (fun a : Action V => ∃ m ∈ n.nodes, Acts m a) n.runs) ∧
      ∀ b : Body, All (fun a : Action V => ∃ m ∈ nodesOf b, Acts m a) (runsOf b) := by
  refine tree_induct (fun n ih => ?_) (.only (by simp) _) fun n rest ihn ih => ?_
  · have own {a : Action V} (h : Acts n a) : ∃ m ∈ n.nodes, Acts m a :=
      ⟨n, nodes_eq n ▸ .head _, h⟩
    have inside {b : Body} (hb : b ∈ n.bodies) : All (fun a : Action V => ∃ m ∈ n.nodes, Acts m a) (runsOf b) :=
      (ih b hb).mono fun a ⟨m, hm, h⟩ => ⟨m, nodes_eq n ▸ .tail _ (List.mem_flatMap.2 ⟨b, hb, hm⟩), h⟩
    cases n with
    | stmt s => exact .only (by simpa using own (.stmt s)) _
    | brk => exact .only (by simp) _
    | scope b => exact inside (.head _)
    | ifThen c b =>
      exact ((All.does (own (.test rfl true))).seq (inside (.head _))).either (.does (own (.test rfl false)))
    | ifElse c a b =>
      exact ((All.does (own (.test rfl true))).seq (inside (.head _))).either
        ((All.does (own (.test rfl false))).seq (inside (.tail _ (.head _))))
    | whileDo c b =>
      exact ((All.does (own (.test rfl true))).seq (inside (.head _))).loop (.does (own (.test rfl false)))
    | repeatUntil b c =>
      exact ((inside (.head _)).seq (.does (own (.test rfl false)))).loop
        ((inside (.head _)).seq (.does (own (.test rfl true))))
    | numericFor v x y z b | genericFor vs es b =>
      exact (All.does (own (.header _))).seq
        ((All.bound (fun held => own (.bind _ held)) (inside (.head _))).loop (.only (by simp) _))
  · rw [runsOf_cons, nodesOf]
    exact (ihn.mono fun a ⟨m, hm, h⟩ => ⟨m, List.mem_append_left _ hm, h⟩).seq
      (ih.mono fun a ⟨m, hm, h⟩ => ⟨m, List.mem_append_right _ hm, h⟩)

theorem mem_cells_of_expressions {n : Node} {c : Cell} (h : c ∈ n.expressions.flatMap Expr.cells) :
    c ∈ n.cells := by
  cases n with
  | stmt s =>
    cases s with
    | assign a => exact List.mem_append_left _ h
    | declare vs => cases h
    | _ => exact h
  | _ => exact List.mem_append_left _ h

theorem mem_cells_of_acts {n : Node} {a : Action V} (h : Acts n a) {c : Cell} (hc : c ∈ a.cells) :
    c ∈ n.cells := by
  cases h with
  | stmt s => exact hc
  | test h holds => cases n <;> cases h <;> simpa [Node.cells, headerVars, Action.cells] using hc
  | header n => exact mem_cells_of_expressions hc
  | bind n held => cases n <;> simp_all [Node.cells, headerVars, Action.cells]

theorem cells_of_runs (b : Body) :
    All (fun a : Action V => ∀ c ∈ a.cells, c ∈ (nodesOf b).flatMap Node.cells) (runsOf b) :=
  (acts_of_runs.2 b).mono fun _ ⟨n, hn, h⟩ _ hc => List.mem_flatMap.2 ⟨n, hn, mem_cells_of_acts h hc⟩

theorem declaredVars_of_runs (b : Body) :
    All (fun a : Action V => ∀ v ∈ a.declaredVars, v ∈ (nodesOf b).flatMap opened) (runsOf b) := by
  refine (acts_of_runs.2 b).mono fun a ⟨n, hn, h⟩ v hv => List.mem_flatMap.2 ⟨n, hn, ?_⟩
  cases h with
  | stmt s => exact hv
  | _ => cases hv

theorem undeclared_stmt {s : Stmt} (hs : s.isDeclaration = false) :
    (Action.stmt s : Action V).undeclared = some (.stmt s) := by
  cases s with
  | assign a =>
    have : a.declares = false := hs
    cases a
    cases this
    rfl
  | declare vs => cases hs
  | _ => rfl

theorem undeclared_declaration (vs : List LocalId) : (runsOf (declaration vs) : Runs V).undeclared = only [] .through := by
  unfold declaration
  split
  · rw [runsOf_nil, undeclared_only]
    rfl
  · rw [runsOf_singleton, runs, undeclared_only]
    rfl

theorem Behind.undeclared_runs {vs : List LocalId} {n : Node} {l : Body} (h : Behind vs n l) :
    (runsOf l : Runs V).undeclared = n.runs.undeclared := by
  cases h with
  | plain => rw [runsOf_append, undeclared_seq, undeclared_declaration, only_nil_seq, runsOf_singleton]
  | @assign a ha =>
    rw [runsOf_append, undeclared_seq, undeclared_declaration, only_nil_seq, runsOf_singleton, runs, runs,
      undeclared_only, undeclared_only]
    rfl

theorem undeclared_runs_declareIn {placed : List Placement} :
    (∀ n path i, Undeclared [n] → ((declareIn placed path i n).runs : Runs V).undeclared = n.runs) ∧
      ∀ b path i, Undeclared b → (runsOf (declareFrom placed path i b) : Runs V).undeclared = runsOf b := by
  have single (a : Action V) (ha : a.undeclared = some a) : (does a).undeclared = does a := by
    rw [does, undeclared_only, List.filterMap_cons_some ha]
    rfl
  have none : (only [] .through : Runs V).undeclared = only [] .through := undeclared_only _ _
  refine tree_induct (fun n ih path i hn => ?_) (fun path i _ => ?_) fun n rest ihn ih path i hb => ?_
  · have inside {b : Body} (hb : b ∈ n.bodies) (w : Nat) :
        (runsOf (declareFrom placed (path ++ [(i, w)]) 0 b) : Runs V).undeclared = runsOf b :=
      ih b hb _ _ (hn.inside hb)
    cases n with
    | stmt s =>
      rw [declareIn, runs, undeclared_only, List.filterMap_cons_some (undeclared_stmt (hn.head rfl))]
      rfl
    | brk => exact undeclared_only _ _
    | scope b => exact inside (.head _) 0
    | ifThen c b =>
      rw [declareIn, runs, runs, undeclared_either, undeclared_seq, single _ rfl, single _ rfl, inside (.head _)]
    | ifElse c a b =>
      rw [declareIn, runs, runs, undeclared_either, undeclared_seq, undeclared_seq, single _ rfl, single _ rfl,
        inside (.head _), inside (.tail _ (.head _))]
    | whileDo c b =>
      rw [declareIn, runs, runs, undeclared_loop, undeclared_seq, single _ rfl, single _ rfl, inside (.head _)]
    | repeatUntil b c =>
      rw [declareIn, runs, runs, undeclared_loop, undeclared_seq, undeclared_seq, single _ rfl, single _ rfl,
        inside (.head _)]
    | numericFor v x y z b | genericFor vs es b =>
      rw [declareIn, runs, runs, undeclared_seq, undeclared_loop, undeclared_bound, single _ rfl, none,
        inside (.head _)]
  · rw [declareFrom, undeclared_declaration, runsOf_nil]
  · rw [declareFrom, runsOf_append, undeclared_seq, (behind_due _ _).undeclared_runs, ihn path i hb.single,
      ih path (i + 1) hb.tail, runsOf_cons]

end Node

namespace Routine

open Node

theorem runs_iff_declare {r : Routine} (h : Undeclared r.body) {l : List (Action V)} {e : Ending} :
    runsOf r.body l e ↔ ∃ k, runsOf r.declare.body k e ∧ k.filterMap Action.undeclared = l := by
  have hruns : (runsOf r.declare.body : Runs V).undeclared = runsOf r.body := by
    rw [body_declare]
    exact undeclared_runs_declareIn.2 r.body [] 0 h
  exact iff_of_eq (congrFun (congrFun hruns l) e).symm

end Routine

end LuaLift
