import LuaLift.Proofs.Tree.Reads

/-!
What the scan for early reads says about runs: behind a declaration the variable is assigned before it is
read. A `break` out of a `repeat` can get round an assignment that the scan counts on.
-/

namespace LuaLift

namespace Status

def Fits (assigned : Bool) (s : Status) : Prop := assigned = true → s ≠ stale

theorem fits_false (s : Status) : s.Fits false := nofun

theorem Fits.mono {a b : Bool} {s : Status} (h : s.Fits a) (hb : b = true → a = true) : s.Fits b :=
  fun hb' => h (hb hb')

end Status

open Status

variable {V : Type} {v : LocalId}

namespace Runs

/-- From some statuses no run reads a stale variable, with what holds behind it and where it breaks. -/
def Keeps (v : LocalId) (P : Status → Prop) (R : Runs V) (T B : Status → Prop) : Prop :=
  ∀ l e, R l e → ∀ s, P s → ∃ s', walk v s l = some s' ∧ (e = .through → T s') ∧ (e = .broken → B s')

variable {P P' M T T' B B' C : Status → Prop} {R S : Runs V}

theorem Keeps.mono (h : Keeps v P R T B) (hP : ∀ s, P' s → P s) (hT : ∀ s, T s → T' s)
    (hB : ∀ s, B s → B' s) : Keeps v P' R T' B' := by
  intro l e hl s hs
  obtain ⟨s', hw, ht, hb⟩ := h l e hl s (hP s hs)
  exact ⟨s', hw, fun he => hT s' (ht he), fun he => hB s' (hb he)⟩

theorem Keeps.mono_start (h : Keeps v P R T B) (hP : ∀ s, P' s → P s) : Keeps v P' R T B :=
  h.mono hP (fun _ h => h) fun _ h => h

theorem Keeps.mono_end (h : Keeps v P R T B) (hT : ∀ s, T s → T' s) : Keeps v P R T' B :=
  h.mono (fun _ h => h) hT fun _ h => h

theorem Keeps.forget (h : Keeps v P R T B) : Keeps v P R (Fits false) B := h.mono_end fun _ _ => fits_false _

theorem Keeps.forget_break (h : Keeps v P R T B) : Keeps v P R T (Fits false) :=
  h.mono (fun _ h => h) (fun _ h => h) fun _ _ => fits_false _

theorem Keeps.nil (h : ∀ s, P s → T s) : Keeps v P (only [] .through : Runs V) T B := by
  rintro _ _ ⟨rfl, rfl⟩ s hs
  exact ⟨s, rfl, fun _ => h s hs, nofun⟩

theorem Keeps.seq (hR : Keeps v P R M B) (hS : Keeps v M S T B) : Keeps v P (seq R S) T B := by
  rintro l e (⟨h, hne⟩ | ⟨k, m, hk, hm, rfl⟩) s hs
  · obtain ⟨s', hw, -, hb⟩ := hR l e h s hs
    exact ⟨s', hw, fun he => absurd he hne, hb⟩
  · obtain ⟨s', hw, ht, -⟩ := hR k _ hk s hs
    obtain ⟨s'', hw', h⟩ := hS m e hm s' (ht rfl)
    exact ⟨s'', by rw [walk_append, hw]; exact hw', h⟩

theorem Keeps.either (hR : Keeps v P R T B) (hS : Keeps v P S T B) : Keeps v P (either R S) T B :=
  fun l e h => h.elim (hR l e) (hS l e)

theorem Keeps.loop (hR : Keeps v P R P T) (hS : Keeps v P S T C) : Keeps v P (loop R S) T B := by
  intro l e h
  induction h with
  | cut => exact fun s _ => ⟨s, rfl, nofun, nofun⟩
  | leave h =>
    intro s hs
    obtain ⟨s', hw, ht, -⟩ := hS _ _ h s hs
    exact ⟨s', hw, ht, nofun⟩
  | broken h =>
    intro s hs
    obtain ⟨s', hw, -, hb⟩ := hR _ _ h s hs
    exact ⟨s', hw, fun _ => hb rfl, nofun⟩
  | stopped h =>
    intro s hs
    obtain ⟨s', hw, -⟩ := hR _ _ h s hs
    exact ⟨s', hw, nofun, nofun⟩
  | again h _ ih =>
    intro s hs
    obtain ⟨s', hw, ht, -⟩ := hR _ _ h s hs
    obtain ⟨s'', hw', h⟩ := ih s' (ht rfl)
    exact ⟨s'', by rw [walk_append, hw]; exact hw', h⟩

theorem Keeps.only {a : Action V} {e : Ending} {assigned : Bool} (hd : v ∉ a.declaredVars)
    (hr : v ∈ a.readVars → assigned = true) (he : e ≠ .broken) :
    Keeps v (Fits assigned) (only [a] e) (Fits (assigned || decide (v ∈ a.writtenVars))) B := by
  rintro _ _ ⟨rfl, rfl⟩ s hs
  have hstep := Action.follow_eq_some.2 ⟨fun hv => hs (hr hv), rfl⟩
  refine ⟨_, by rw [walk_cons, hstep]; rfl, fun _ h => ?_, fun hb => absurd hb he⟩
  rw [if_neg hd]
  split
  · nofun
  · next hw => exact hs (by simpa [hw] using h)

theorem Keeps.does {a : Action V} {assigned : Bool} (hd : a.declaredVars = [])
    (hr : v ∈ a.readVars → assigned = true) : Keeps v (Fits assigned) (does a) (Fits assigned) B := by
  have h : Keeps v (Fits assigned) (Runs.does a) _ B := .only (hd ▸ List.not_mem_nil) hr Ending.noConfusion
  exact h.mono_end fun _ h => h.mono (Bool.or_eq_true_iff.2 ∘ .inl)

theorem Keeps.bound {vs : List LocalId} {assigned : Bool} (h : Keeps v (Fits assigned) R T B) :
    Keeps v (Fits assigned) (bound vs R) T B :=
  fun l e ⟨_, hl⟩ => (Keeps.seq (.does rfl fun hv => absurd hv List.not_mem_nil) h) l e hl

theorem keeps_of_undeclared (h : All (fun a => v ∉ a.declaredVars) R) :
    Keeps v (· ≠ .stale) R (· ≠ .stale) (· ≠ .stale) := by
  intro l e hl s hs
  have hd := h l e hl
  clear hl
  suffices ∃ s', walk v s l = some s' ∧ s' ≠ .stale by
    obtain ⟨s', hw, hs'⟩ := this
    exact ⟨s', hw, fun _ => hs', fun _ => hs'⟩
  induction l generalizing s with
  | nil => exact ⟨s, rfl, hs⟩
  | cons a l ih =>
    rw [List.forall_mem_cons] at hd
    rw [walk_cons, Action.follow_eq_some.2 ⟨fun _ => hs, rfl⟩]
    refine ih _ ?_ hd.2
    rw [if_neg hd.1]
    split
    · nofun
    · exact hs

theorem keeps_of_absent (h : All (fun a => ⟨.var, v⟩ ∉ a.cells) R) : Keeps v P R P P := by
  intro l e hl s hs
  refine ⟨s, ?_, fun _ => hs, fun _ => hs⟩
  replace hl := h l e hl
  clear h
  induction l with
  | nil => rfl
  | cons a l ih =>
    rw [List.forall_mem_cons] at hl
    rw [walk_cons, Action.follow_of_absent (mt Action.mem_cells_of_readVars hl.1)
      (mt Action.mem_cells_of_writtenVars hl.1) (mt Action.mem_cells_of_declaredVars hl.1)]
    exact ih hl.2

theorem Keeps.of_undeclared (h : Keeps v P R.undeclared T B) (hd : All (fun a => v ∉ a.declaredVars) R) :
    Keeps v P R T B := by
  intro l e hl s hs
  rw [walk_undeclared (hd l e hl)]
  exact h _ e ⟨l, hl, rfl⟩ s hs

end Runs

namespace Node

open Runs

theorem declaredVars_of_undeclared {b : Body} (hb : Undeclared b) :
    All (fun a : Action V => a.declaredVars = []) (runsOf b) := by
  refine (acts_of_runs.2 b).mono fun a ⟨n, hn, h⟩ => ?_
  cases h with
  | stmt s => exact opened_of_undeclared (n := stmt s) fun t ht => hb t (ht ▸ hn)
  | _ => rfl

def Unbroken (b : Body) : Prop := ∀ a c, repeatUntil a c ∈ nodesOf b → breaksOf a = false

namespace Unbroken

variable {n : Node} {rest : Body}

theorem tail (h : Unbroken (n :: rest)) : Unbroken rest :=
  fun a c hm => h a c (List.mem_append_right _ hm)

theorem single (h : Unbroken (n :: rest)) : Unbroken [n] :=
  fun a c hm => h a c (List.mem_append_left _ (by simpa using hm))

theorem inside {b : Body} (h : Unbroken (n :: rest)) (hb : b ∈ n.bodies) : Unbroken b := by
  intro a c hm
  refine h a c (List.mem_append_left _ ?_)
  rw [nodes_eq]
  exact .tail _ (List.mem_flatMap.2 ⟨b, hb, hm⟩)

end Unbroken

theorem readBy_eq_some {assigned known : Bool} {es : List Expr} : readBy v assigned es = some known ↔
    known = assigned ∧ (v ∈ es.flatMap (·.vars) → assigned = true) := by
  have hany : es.any (fun e => decide (0 < e.count ⟨.var, v⟩)) = true ↔ v ∈ es.flatMap (·.vars) := by
    simp [Expr.count, List.count_pos_iff, Expr.vars]
  unfold readBy
  cases assigned with
  | true => simp [eq_comm]
  | false =>
    by_cases hv : v ∈ es.flatMap (·.vars)
    · simp [hany.2 hv, hv]
    · have : es.any (fun e => decide (0 < e.count ⟨.var, v⟩)) = false :=
        Bool.eq_false_iff.2 (mt hany.1 hv)
      simp [this, hv, eq_comm]

theorem readBy_bind {β : Type} {assigned : Bool} {es : List Expr} {f : Bool → Option β} {x : β}
    (h : (readBy v assigned es).bind f = some x) : readBy v assigned es = some assigned ∧ f assigned = some x := by
  obtain ⟨known, hr, hf⟩ := Option.bind_eq_some_iff.1 h
  obtain ⟨rfl, -⟩ := readBy_eq_some.1 hr
  exact ⟨hr, hf⟩

theorem keeps_test {a : Action V} {assigned known : Bool} {B : Status → Prop} (hd : a.declaredVars = [])
    (h : readBy v assigned a.operands = some known) : Keeps v (Fits assigned) (does a) (Fits known) B := by
  obtain ⟨rfl, hr⟩ := readBy_eq_some.1 h
  exact .does hd hr

theorem keeps_of_assigned {b : Body} (hb : Undeclared b) (known : Bool) :
    Keeps v (Fits true) (runsOf b : Runs V) (Fits known) (Fits true) :=
  (keeps_of_undeclared ((declaredVars_of_undeclared hb).mono fun _ ha => ha ▸ List.not_mem_nil)).mono
    (fun _ h => h rfl) (fun _ h _ => h) fun _ h _ => h

theorem keeps_endsInExit {b : Body} {known : Bool} {P B : Status → Prop}
    (h : Keeps v P (runsOf b : Runs V) (Fits known) B) :
    Keeps v P (runsOf b : Runs V) (Fits (known || endsInExit b)) B := by
  cases he : endsInExit b with
  | false => rwa [Bool.or_false]
  | true =>
    intro l e hl s hs
    obtain ⟨s', hw, -, hbrk⟩ := h l e hl s hs
    refine ⟨s', hw, fun ht => ?_, hbrk⟩
    subst ht
    exact absurd hl (not_through_of_isExit.2 b he l)

theorem keeps_of_not_breaks {b : Body} {P T B B' : Status → Prop} (hb : breaksOf b = false)
    (h : Keeps v P (runsOf b : Runs V) T B) : Keeps v P (runsOf b : Runs V) T B' := by
  intro l e hl s hs
  obtain ⟨s', hw, ht, -⟩ := h l e hl s hs
  refine ⟨s', hw, ht, fun he => ?_⟩
  subst he
  rw [breaks_of_broken.2 b l hl] at hb
  cases hb

theorem keeps_scanned_stmt {s : Stmt} {known : Bool} (hd : s.declaredVars = [])
    (h : scan v false (stmt s) = some known) :
    Keeps v (Fits false) ((stmt s).runs : Runs V) (Fits known) (Fits false) := by
  obtain ⟨hr, hk⟩ := readBy_bind h
  cases hk
  obtain ⟨-, hread⟩ := readBy_eq_some.1 hr
  have hd : (Action.stmt s : Action V).declaredVars = [] := hd
  refine (Keeps.only (hd ▸ List.not_mem_nil) hread ?_).mono_end fun _ h => h.mono fun hk => ?_
  · split <;> exact Ending.noConfusion
  · exact decide_eq_true (List.contains_iff_mem.1 hk)

theorem keeps_scanned_node {n : Node} {known : Bool} (hn : Undeclared [n]) (hu : Unbroken [n])
    (h : scan v false n = some known)
    (inside : ∀ {b : Body}, b ∈ n.bodies → ∀ {known : Bool}, scanAll v false b = some known →
      Keeps v (Fits false) (runsOf b : Runs V) (Fits known) (Fits false)) :
    Keeps v (Fits false) (n.runs : Runs V) (Fits known) (Fits false) := by
  cases n with
  | stmt s => exact keeps_scanned_stmt (opened_of_undeclared (n := stmt s) fun t ht => hn.head ht) h
  | brk =>
    rintro _ _ ⟨rfl, rfl⟩ s hs
    exact ⟨s, rfl, Ending.noConfusion, fun _ => hs⟩
  | scope b => exact inside (.head _) h
  | ifThen c b =>
    obtain ⟨hr, h⟩ := readBy_bind h
    obtain ⟨k, hk, h⟩ := Option.bind_eq_some_iff.1 h
    obtain rfl : known = false := by simpa using h.symm
    exact ((keeps_test rfl hr).seq (inside (.head _) hk).forget).either (keeps_test rfl hr)
  | ifElse c a b =>
    obtain ⟨hr, h⟩ := readBy_bind h
    obtain ⟨first, hf, h⟩ := Option.bind_eq_some_iff.1 h
    obtain ⟨second, hs, h⟩ := Option.bind_eq_some_iff.1 h
    cases h
    have arms := Bool.and_eq_true_iff (x := first || endsInExit a) (y := second || endsInExit b)
    refine .either ((keeps_test rfl hr).seq ?_) ((keeps_test rfl hr).seq ?_)
    · exact (keeps_endsInExit (inside (.head _) hf)).mono_end fun _ h => h.mono fun hk => (arms.1 hk).1
    · exact (keeps_endsInExit (inside (.tail _ (.head _)) hs)).mono_end fun _ h => h.mono fun hk => (arms.1 hk).2
  | whileDo c b =>
    obtain ⟨hr, h⟩ := readBy_bind h
    obtain ⟨k, hk, h⟩ := Option.bind_eq_some_iff.1 h
    cases h
    exact ((keeps_test rfl hr).seq (inside (.head _) hk).forget).loop (C := Fits false) (keeps_test rfl hr)
  | repeatUntil b c =>
    obtain ⟨k, hk, hr⟩ := Option.bind_eq_some_iff.1 h
    obtain ⟨rfl, -⟩ := readBy_eq_some.1 hr
    -- No run of the body breaks, so each one comes to the test.
    have hbody : Keeps v (Fits false) (runsOf b : Runs V) (Fits known) (Fits known) :=
      keeps_of_not_breaks (hu b c (List.mem_append_left _ (.head _))) (inside (.head _) hk)
    exact (hbody.seq (keeps_test rfl hr).forget).loop (C := Fits known) (hbody.seq (keeps_test rfl hr))
  | numericFor w x y z b | genericFor ws es b =>
    obtain ⟨hr, h⟩ := readBy_bind h
    obtain ⟨k, hk, h⟩ := Option.bind_eq_some_iff.1 h
    cases h
    exact (keeps_test rfl hr).seq
      (.loop (C := Fits false) (inside (.head _) hk).forget.bound (.nil fun _ h => h))

theorem keeps_of_scan :
    (∀ n assigned known, Undeclared [n] → Unbroken [n] → scan v assigned n = some known →
      Keeps v (Fits assigned) (n.runs : Runs V) (Fits known) (Fits assigned)) ∧
    ∀ b assigned known, Undeclared b → Unbroken b → scanAll v assigned b = some known →
      Keeps v (Fits assigned) (runsOf b : Runs V) (Fits known) (Fits assigned) := by
  refine tree_induct (fun n ih assigned known hn hu h => ?_) (fun assigned known _ _ h => ?_)
    fun n rest ihn ih assigned known hb hu h => ?_
  · cases assigned with
    | true =>
      rw [← runsOf_singleton]
      exact keeps_of_assigned hn known
    | false =>
      exact keeps_scanned_node hn hu h fun hb _ hs => ih _ hb false _ (hn.inside hb) (hu.inside hb) hs
  · cases h
    rw [runsOf_nil]
    exact .nil fun _ h => h
  · obtain ⟨k, hk, hrest⟩ := Option.bind_eq_some_iff.1 h
    cases assigned with
    | true => exact keeps_of_assigned hb known
    | false =>
      rw [runsOf_cons]
      exact (ihn false k hb.single hu.single hk).seq (ih k known hb.tail hu.tail hrest).forget_break

/-- `repeat if a then break end; x = true until b; f(x)`: the scan counts on an assignment that the `break`
gets round. -/
example :
    let body : Body := [ifThen (.global "a") [brk], stmt (.store (.var 0) (.boolean true))]
    scanAll 0 false [repeatUntil body (.global "b"), stmt (.call (.global "f") [.var 0] 0)] = some true ∧
      breaksOf body = true := by
  decide

end Node

end LuaLift
