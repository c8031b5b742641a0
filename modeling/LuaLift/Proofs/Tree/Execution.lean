import LuaLift.Proofs.Meaning
import LuaLift.Proofs.Tree.Tidying

/-!
Execution of a tree for any meaning of its statements, its tests and its loops over values, with each loop cut short
behind some number of turns. Moving an else arm out behind an exit and turning tests round leave every execution
as it is, the runs that never end included: they are cut at every number of turns.
-/

namespace LuaLift

inductive Leave where
  | through
  | broken
  | returned
  | cut
  deriving DecidableEq

structure Course (σ : Type) where
  events : List Event
  leave : Leave
  state : σ

abbrev Execution (σ : Type) := σ → Course σ

/-- A loop over values starts from its header and then has a next turn or not. Negations ask what they negate. -/
structure TreeMeaning (σ ι : Type) where
  run : Stmt → σ → σ
  judge : Judge σ
  numeric : LocalId → Expr → Expr → Expr → σ → ι × σ
  generic : List LocalId → List Expr → σ → ι × σ
  next : ι → σ → Option ι × σ
  judge_not : ∀ e s, judge (.unary .not e) s = (judge e s).negated
  judge_ne : ∀ a b s, judge (.binary .ne a b) s = (judge (.binary .eq a b) s).negated

variable {σ ι : Type}

def Meaning.onTrees (m : Meaning σ) (count : Nat) : TreeMeaning σ Nat where
  run := m.run
  judge := m.decide
  numeric _ _ _ _ s := (count, s)
  generic _ _ s := (count, s)
  next
    | 0, s => (none, s)
    | n + 1, s => (some n, s)
  judge_not _ _ := rfl
  judge_ne _ _ _ := rfl

namespace Execution

def stop (l : Leave) : Execution σ := fun s => ⟨[], l, s⟩

def behind (es : List Event) (c : Course σ) : Course σ := { c with events := es ++ c.events }

def seq (f g : Execution σ) : Execution σ := fun s =>
  match f s with
  | ⟨es, .through, s⟩ => behind es (g s)
  | c => c

def branch (judge : Judge σ) (c : Expr) (f g : Execution σ) : Execution σ := fun s =>
  behind (judge c s).events (if (judge c s).holds then f (judge c s).state else g (judge c s).state)

def iterate (next : ι → σ → Option ι × σ) (turn : Execution σ) : Nat → ι → Execution σ
  | 0, _ => stop .cut
  | n + 1, i => fun s =>
    match next i s with
    | (none, s) => ⟨[], .through, s⟩
    | (some i, s) =>
      match turn s with
      | ⟨es, .through, s⟩ => behind es (iterate next turn n i s)
      | ⟨es, .broken, s⟩ => ⟨es, .through, s⟩
      | c => c

def forever (turn : Execution σ) (turns : Nat) : Execution σ := iterate (fun i s => (some i, s)) turn turns ()

theorem seq_stop (f : Execution σ) : seq f (stop .through) = f := by
  funext s
  unfold seq
  split
  · next es s' h => simp [h, stop, behind]
  · rfl

theorem stop_seq (f : Execution σ) : seq (stop .through) f = f := rfl

theorem seq_of_leave {f : Execution σ} (h : ∀ s, (f s).leave ≠ .through) (g : Execution σ) : seq f g = f := by
  funext s
  unfold seq
  split
  · next es s' hs =>
    have := h s
    rw [hs] at this
    exact absurd rfl this
  · rfl

theorem leave_seq {g : Execution σ} (h : ∀ s, (g s).leave ≠ .through) (f : Execution σ) (s : σ) :
    (seq f g s).leave ≠ .through := by
  unfold seq
  cases f s with
  | mk es l t => cases l <;> simp [behind, h]

theorem seq_behind {f g : Execution σ} {es : List Event} {s t : σ} (h : f s = behind es (g t)) (k : Execution σ) :
    seq f k s = behind es (seq g k t) := by
  unfold seq
  rw [h]
  cases hg : g t with
  | mk fs l u => cases l <;> simp [behind]

theorem seq_assoc (f g k : Execution σ) : seq (seq f g) k = seq f (seq g k) := by
  funext s
  cases hf : f s with
  | mk es l t =>
    cases l with
    | through =>
      have hfg : seq f g s = behind es (g t) := by simp [seq, hf]
      have hk : seq f (seq g k) s = behind es (seq g k t) := by simp [seq, hf]
      rw [seq_behind hfg, hk]
    | _ => simp [seq, hf]

theorem branch_seq (judge : Judge σ) (c : Expr) (f g k : Execution σ) :
    seq (branch judge c f g) k = branch judge c (seq f k) (seq g k) := by
  funext s
  cases h : (judge c s).holds with
  | true =>
    have : branch judge c f g s = behind (judge c s).events (f (judge c s).state) := by simp [branch, h]
    rw [seq_behind this]
    simp [branch, h]
  | false =>
    have : branch judge c f g s = behind (judge c s).events (g (judge c s).state) := by simp [branch, h]
    rw [seq_behind this]
    simp [branch, h]

theorem branch_negated {judge : Judge σ} {c d : Expr} (h : ∀ s, judge d s = (judge c s).negated)
    (f g : Execution σ) : branch judge d f g = branch judge c g f := by
  funext s
  cases hc : (judge c s).holds <;> simp [branch, h, hc]

def Extends (f g : Execution σ) : Prop := ∀ s, (f s).leave ≠ .cut → g s = f s

namespace Extends

variable {f f' g g' : Execution σ}

theorem refl (f : Execution σ) : Extends f f := fun _ _ => rfl

theorem seq (hf : Extends f f') (hg : Extends g g') : Extends (seq f g) (seq f' g') := by
  intro s hs
  unfold Execution.seq at hs ⊢
  cases h : f s with
  | mk es l t =>
    cases l with
    | cut => simp [h] at hs
    | through =>
      rw [h] at hs
      rw [hf s (by simp [h]), h]
      exact congrArg (behind es) (hg t hs)
    | _ => rw [hf s (by simp [h]), h]

theorem branch (judge : Judge σ) (c : Expr) (hf : Extends f f') (hg : Extends g g') :
    Extends (branch judge c f g) (branch judge c f' g') := by
  intro s hs
  unfold Execution.branch at hs ⊢
  apply congrArg
  split
  · next h =>
    rw [if_pos h] at hs
    exact hf _ hs
  · next h =>
    rw [if_neg h] at hs
    exact hg _ hs

theorem iterate {next : ι → σ → Option ι × σ} (hf : Extends f f') {m n : Nat} (hmn : m ≤ n) (i : ι) :
    Extends (iterate next f m i) (iterate next f' n i) := by
  intro s hs
  induction m generalizing n i s with
  | zero => exact absurd rfl hs
  | succ m ih =>
    obtain ⟨n, rfl⟩ : ∃ k, n = k + 1 := ⟨n - 1, by omega⟩
    unfold Execution.iterate at hs ⊢
    cases hi : next i s with
    | mk j t =>
      cases j with
      | none => rfl
      | some j =>
        rw [hi] at hs
        dsimp only at hs ⊢
        cases ht : f t with
        | mk es l u =>
          cases l with
          | cut => simp [ht] at hs
          | through =>
            rw [ht] at hs
            rw [hf t (by simp [ht]), ht]
            exact congrArg (behind es) (ih (by omega) j u hs)
          | _ => rw [hf t (by simp [ht]), ht]

end Extends

end Execution

namespace Node

open Execution

variable (M : TreeMeaning σ ι) (turns : Nat)

mutual

def exec : Node → Execution σ
  | stmt t => fun s => ⟨[.stmt t], if t.isReturn then .returned else .through, M.run t s⟩
  | brk => stop .broken
  | scope b => execAll b
  | ifThen c b => branch M.judge c (execAll b) (stop .through)
  | ifElse c a b => branch M.judge c (execAll a) (execAll b)
  | whileDo c b => forever (branch M.judge c (execAll b) (stop .broken)) turns
  | repeatUntil b c => forever (seq (execAll b) (branch M.judge c (stop .broken) (stop .through))) turns
  | numericFor v x y z b => fun s =>
    iterate M.next (execAll b) turns (M.numeric v x y z s).1 (M.numeric v x y z s).2
  | genericFor vs es b => fun s =>
    iterate M.next (execAll b) turns (M.generic vs es s).1 (M.generic vs es s).2

def execAll : List Node → Execution σ
  | [] => stop .through
  | n :: rest => seq (exec n) (execAll rest)

end

variable {M} {turns}

theorem execAll_append (a b : Body) : execAll M turns (a ++ b) = seq (execAll M turns a) (execAll M turns b) := by
  induction a with
  | nil => rw [execAll, stop_seq, List.nil_append]
  | cons n a ih => rw [List.cons_append, execAll, execAll, ih, seq_assoc]

theorem execAll_single (n : Node) : execAll M turns [n] = exec M turns n := by
  rw [execAll, execAll, seq_stop]

theorem leave_ne_through : (∀ n : Node, n.isExit = true → ∀ s, (exec M turns n s).leave ≠ .through) ∧
    ∀ b, endsInExit b = true → ∀ s, (execAll M turns b s).leave ≠ .through := by
  refine tree_induct (fun n ih hn s => ?_) (fun h => by cases h) fun n rest ihn ih hb s => ?_
  · cases n with
    | stmt t =>
      have ht : t.isReturn = true := hn
      simp [exec, ht]
    | brk => simp [exec, stop]
    | scope b =>
      rw [exec]
      exact ih b (.head _) hn s
    | ifElse c a b =>
      rw [isExit, Bool.and_eq_true] at hn
      rw [exec, branch]
      split
      · apply ih a (.head _) hn.1
      · apply ih b (.tail _ (.head _)) hn.2
    | _ => cases hn
  · cases rest with
    | nil =>
      rw [execAll_single]
      exact ihn hb s
    | cons m rest =>
      rw [endsInExit_cons_cons] at hb
      rw [execAll]
      exact leave_seq (ih hb) _ s

theorem exec_extends {m n : Nat} (h : m ≤ n) : (∀ x : Node, Extends (exec M m x) (exec M n x)) ∧
    ∀ b, Extends (execAll M m b) (execAll M n b) := by
  refine tree_induct (fun x ih => ?_) (.refl _) fun x rest ihx ih => ?_
  · cases x with
    | stmt t => exact .refl _
    | brk => exact .refl _
    | scope b => exact ih b (.head _)
    | ifThen c b => exact .branch _ c (ih b (.head _)) (.refl _)
    | ifElse c a b => exact .branch _ c (ih a (.head _)) (ih b (.tail _ (.head _)))
    | whileDo c b => exact .iterate (.branch _ c (ih b (.head _)) (.refl _)) h ()
    | repeatUntil b c => exact .iterate ((ih b (.head _)).seq (.refl _)) h ()
    | numericFor v x y z b => exact fun s => (ih b (.head _)).iterate h _ _
    | genericFor vs es b => exact fun s => (ih b (.head _)).iterate h _ _
  · exact ihx.seq ih

/-- The same executions, for every number of turns. -/
def SameCourses (M : TreeMeaning σ ι) (b b' : Body) : Prop := ∀ turns, execAll M turns b' = execAll M turns b

theorem congruence_sameCourses : Congruence (SameCourses M) where
  refl _ _ := rfl
  trans h h' turns := (h' turns).trans (h turns)
  around x y h turns := by
    simp only [execAll_append, h turns]
  inside {n w b b'} hn h turns := by
    rw [execAll_single, execAll_single]
    rcases w with _ | _ | w <;> cases n <;> cases hn <;> simp [replace, withBodies, exec, h turns]

theorem sameCourses_hoist {c : Expr} {a b : Body} (ha : endsInExit a = true) :
    SameCourses M [ifElse c a b] (ifThen c a :: b) := by
  intro turns
  rw [execAll, execAll_single, exec, exec, branch_seq, stop_seq, seq_of_leave (leave_ne_through.2 a ha)]

theorem judge_normalTest (M : TreeMeaning σ ι) (e : Expr) : M.judge (normalTest e).1 = M.judge e := by
  funext s
  unfold normalTest
  split
  · next c h =>
    unfold normalTest? at h
    split at h <;> cases h
    · rw [M.judge_not, M.judge_not, Verdict.negated_negated]
    · rw [M.judge_not, M.judge_ne]
    · rw [M.judge_not, M.judge_ne, Verdict.negated_negated]
  · rfl

theorem judge_negate (M : TreeMeaning σ ι) {e : Expr} (h : isNegation e = true) (s : σ) :
    M.judge e s = (M.judge e.negate s).negated := by
  unfold isNegation at h
  split at h
  · exact M.judge_not _ s
  · exact M.judge_ne _ _ s
  · cases h

theorem branch_normalTest (M : TreeMeaning σ ι) (e : Expr) (f g : Execution σ) :
    branch M.judge (normalTest e).1 f g = branch M.judge e f g := by
  unfold branch
  rw [judge_normalTest]

theorem sameCourses_simplifyTest (n : Node) : SameCourses M [n] [(simplifyTest n).1] := by
  intro turns
  rw [execAll_single, execAll_single]
  cases n with
  | ifElse c a b =>
    simp only [simplifyTest]
    split
    · next hb =>
      rw [List.isEmpty_iff.1 hb, exec, exec, branch_normalTest, execAll]
    · split
      · next hc => rw [exec, exec, ← branch_negated (judge_negate M hc), branch_normalTest]
      · rw [exec, exec, branch_normalTest]
  | ifThen c b | whileDo c b | repeatUntil b c =>
    rw [simplifyTest, exec, exec, branch_normalTest]
  | _ => rfl

def passes (fs : List (Body → Tidied)) (b : Body) : Body := fs.foldl (fun b f => (everywhere f b).1) b

/-- Moving else arms out behind exits and turning tests round, however often and in whatever order, leave the
statements that are executed, the tests with their outcomes and the way the body is left. -/
theorem execAll_passes (M : TreeMeaning σ ι) {fs : List (Body → Tidied)}
    (hfs : ∀ f ∈ fs, f = hoistIn ∨ f = simplifyIn) (b : Body) (turns : Nat) (s : σ) :
    execAll M turns (passes fs b) s = execAll M turns b s := by
  have hpass {f : Body → Tidied} (hf : f ∈ fs) (b : Body) : SameCourses M b (everywhere f b).1 := by
    rcases hfs f hf with rfl | rfl
    · exact congruence_sameCourses.everywhere (congruence_sameCourses.hoistIn_of sameCourses_hoist) b
    · exact congruence_sameCourses.everywhere (congruence_sameCourses.simplifyIn_of sameCourses_simplifyTest) b
  apply congrFun
  unfold passes
  induction fs generalizing b with
  | nil => rfl
  | cons f fs ih =>
    rw [List.foldl_cons, ih (fun g hg => hfs g (.tail _ hg)) _ fun hg => hpass (.tail _ hg)]
    exact hpass (.head _) b turns

def polling : Body :=
  [whileDo (.unary .not (.binary .eq (.global "a") (.global "b")))
    [ifElse (.global "c") [brk] [stmt (.call (.global "f") [] 0)], stmt (.call (.global "g") [] 0)]]

theorem execAll_passes_polling : (∀ f ∈ [hoistIn, simplifyIn], f = hoistIn ∨ f = simplifyIn) ∧
    passes [hoistIn, simplifyIn] polling = [whileDo (.binary .ne (.global "a") (.global "b"))
      [ifThen (.global "c") [brk], stmt (.call (.global "f") [] 0), stmt (.call (.global "g") [] 0)]] ∧
    execAll (Meaning.counting.onTrees 2) 5 (passes [hoistIn, simplifyIn] polling) 0 =
      execAll (Meaning.counting.onTrees 2) 5 polling 0 := by
  have hfs : ∀ f ∈ [hoistIn, simplifyIn], f = hoistIn ∨ f = simplifyIn := by simp
  exact ⟨hfs, rfl, execAll_passes (Meaning.counting.onTrees 2) hfs polling 5 0⟩

end Node

end LuaLift
