import LuaLift.Proofs.Machine
import LuaLift.Tree.Basic

namespace LuaLift

inductive Event where
  | stmt (s : Stmt)
  | test (e : Expr) (holds : Bool)

structure Meaning (σ : Type) where
  run : Stmt → σ → σ
  test : Expr → σ → Bool × σ

structure Verdict (σ : Type) where
  events : List Event
  holds : Bool
  state : σ

abbrev Judge (σ : Type) := Expr → σ → Verdict σ

variable {σ : Type}

namespace Verdict

def negated (v : Verdict σ) : Verdict σ := { v with holds := !v.holds }

def behind (es : List Event) (v : Verdict σ) : Verdict σ := { v with events := es ++ v.events }

@[simp] theorem negated_events (v : Verdict σ) : v.negated.events = v.events := rfl
@[simp] theorem negated_holds (v : Verdict σ) : v.negated.holds = !v.holds := rfl
@[simp] theorem negated_state (v : Verdict σ) : v.negated.state = v.state := rfl
@[simp] theorem negated_negated (v : Verdict σ) : v.negated.negated = v := by simp [negated]

end Verdict

@[simp] theorem Constant.truthy_boolean (b : Bool) : (boolean b).truthy = b := by cases b <;> rfl

namespace Meaning

variable (m : Meaning σ)

def elementary (e : Expr) (s : σ) : Verdict σ :=
  ⟨[.test e (m.test e s).1], (m.test e s).1, (m.test e s).2⟩

def whole : Judge σ
  | .constant c, s => ⟨[], c.truthy, s⟩
  | e, s => m.elementary e s

def decide : Judge σ
  | .constant c, s => ⟨[], c.truthy, s⟩
  | .unary .not e, s => (decide e s).negated
  | .binary .ne a b, s => (m.elementary (.binary .eq a b) s).negated
  | .binary .and a b, s =>
    if (decide a s).holds then (decide b (decide a s).state).behind (decide a s).events
    else decide a s
  | .binary .or a b, s =>
    if (decide a s).holds then decide a s
    else (decide b (decide a s).state).behind (decide a s).events
  | e, s => m.elementary e s

def runAll (l : List Stmt) (s : σ) : σ := l.foldl (fun s t => m.run t s) s

@[simp] theorem runAll_nil (s : σ) : m.runAll [] s = s := rfl

theorem runAll_append (l l' : List Stmt) (s : σ) : m.runAll (l ++ l') s = m.runAll l' (m.runAll l s) :=
  List.foldl_append

theorem decide_negate (e : Expr) (s : σ) : m.decide e.negate s = (m.decide e s).negated := by
  unfold Expr.negate
  split
  · simp [decide]
  · simp [decide, elementary]
  · simp [decide, elementary]
  · simp [decide, Expr.boolean, Verdict.negated]
  · simp [decide]

def counting : Meaning Nat := ⟨fun _ n => n + 1, fun _ n => (n.blt 3, n + 1)⟩

end Meaning

abbrev WalkConfig (σ : Type) := Option BlockId × σ

namespace Jump

def follow (judge : Judge σ) (es : List Event) (s : σ) : Jump → List Event × WalkConfig σ
  | always t => (es, some t, s)
  | branch c t e => (es ++ (judge c s).events, some (if (judge c s).holds then t else e), (judge c s).state)
  | leave => (es, none, s)

variable {judge : Judge σ}

theorem follow_append (es fs : List Event) (s : σ) (j : Jump) :
    j.follow judge (es ++ fs) s = (es ++ (j.follow judge fs s).1, (j.follow judge fs s).2) := by
  cases j <;> simp [follow]

theorem follow_target {es : List Event} {s : σ} {j : Jump} {t : BlockId}
    (h : (j.follow judge es s).2.1 = some t) : t ∈ j.targets := by
  cases j with
  | always u => simpa [follow, targets, eq_comm] using h
  | branch c u e =>
    simp only [follow, Option.some.injEq] at h
    rw [← h]
    split <;> simp [targets]
  | leave => cases h

end Jump

namespace Proto

def machine (m : Meaning σ) (judge : Judge σ) (p : Proto) : Machine Event (WalkConfig σ) where
  next
    | (none, _) => none
    | (some b, s) =>
      some ((p.jump b).follow judge ((p.body b).map .stmt) (m.runAll (p.body b) s))

variable {m : Meaning σ} {judge : Judge σ} {p : Proto}

@[simp] theorem machine_next_none (s : σ) : (p.machine m judge).next (none, s) = none := rfl

theorem machine_next_some (p : Proto) (m : Meaning σ) (judge : Judge σ) (b : BlockId) (s : σ) :
    (p.machine m judge).next (some b, s) =
      some ((p.jump b).follow judge ((p.body b).map .stmt) (m.runAll (p.body b) s)) := rfl

theorem sameRuns_of_steps {q : Proto} {P : BlockId → Prop}
    (h : ∀ b, P b → ∀ s, ∃ es t s' k l, 0 < k ∧ 0 < l ∧ (p.machine m judge).Steps (some b, s) es (t, s') k ∧
      (q.machine m judge).Steps (some b, s) es (t, s') l ∧ ∀ c, t = some c → P c)
    {o : Option BlockId} (ho : ∀ b, o = some b → P b) (s : σ) :
    Machine.SameRuns (p.machine m judge) (q.machine m judge) Prod.snd Prod.snd (o, s) (o, s) := by
  refine Machine.SameRuns.of_matches (R := fun c d => c = d ∧ ∀ b, c.1 = some b → P b) ?_ ⟨rfl, ho⟩
  rintro ⟨b | b, s⟩ - ⟨rfl, hb⟩
  · exact ⟨[], _, _, 0, 0, .refl _, .refl _, .inl ⟨rfl, rfl, rfl⟩⟩
  · obtain ⟨es, t, s', k, l, hk, hl, hp, hq, ht⟩ := h b (hb b rfl) s
    exact ⟨es, _, _, k, l, hp, hq, .inr ⟨hk, hl, rfl, ht⟩⟩

end Proto

/-- What goes on behind a body: the rest of the body around it, behind a loop or not. -/
inductive Context where
  | rest (after : Body)
  | loop (node : Node) (after : Body)

structure TreeConfig (σ : Type) where
  todo : Body
  stack : List Context
  state : σ

namespace Context

def escape : List Context → Option (Body × List Context)
  | [] => none
  | rest _ :: k => escape k
  | loop _ after :: k => some (after, k)

end Context

namespace TreeConfig

/-- The state at a proper end. A tree that cannot go on has none. -/
def final : TreeConfig σ → Option σ
  | ⟨[], [], s⟩ => some s
  | _ => none

end TreeConfig

namespace Node

/-- The first node of a body. A `return` ends everything; the iterations of a `for` are not modelled. -/
def enter (m : Meaning σ) (judge : Judge σ) (after : Body) (k : List Context) (s : σ) :
    Node → Option (List Event × TreeConfig σ)
  | stmt t => some ([.stmt t], if t.isReturn then ⟨[], [], m.run t s⟩ else ⟨after, k, m.run t s⟩)
  | brk => (Context.escape k).map fun (a, k) => ([], ⟨a, k, s⟩)
  | scope b => some ([], ⟨b, .rest after :: k, s⟩)
  | ifThen c b =>
    some ((judge c s).events,
      if (judge c s).holds then ⟨b, .rest after :: k, (judge c s).state⟩
      else ⟨after, k, (judge c s).state⟩)
  | ifElse c a b =>
    some ((judge c s).events,
      if (judge c s).holds then ⟨a, .rest after :: k, (judge c s).state⟩
      else ⟨b, .rest after :: k, (judge c s).state⟩)
  | whileDo c b =>
    some ((judge c s).events,
      if (judge c s).holds then ⟨b, .loop (whileDo c b) after :: k, (judge c s).state⟩
      else ⟨after, k, (judge c s).state⟩)
  | repeatUntil b c => some ([], ⟨b, .loop (repeatUntil b c) after :: k, s⟩)
  | numericFor .. | genericFor .. => none

def again (judge : Judge σ) (after : Body) (k : List Context) (s : σ) :
    Node → Option (List Event × TreeConfig σ)
  | whileDo c b => some ([], ⟨whileDo c b :: after, k, s⟩)
  | repeatUntil b c =>
    some ((judge c s).events,
      if (judge c s).holds then ⟨after, k, (judge c s).state⟩
      else ⟨repeatUntil b c :: after, k, (judge c s).state⟩)
  | _ => none

def machine (m : Meaning σ) (judge : Judge σ) : Machine Event (TreeConfig σ) where
  next
    | ⟨[], [], _⟩ => none
    | ⟨[], .rest after :: k, s⟩ => some ([], ⟨after, k, s⟩)
    | ⟨[], .loop n after :: k, s⟩ => n.again judge after k s
    | ⟨n :: after, k, s⟩ => n.enter m judge after k s

end Node

end LuaLift
