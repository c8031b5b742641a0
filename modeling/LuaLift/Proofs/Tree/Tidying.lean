import LuaLift.Proofs.Syntax.Substitution
import LuaLift.Proofs.Tree.Scoping
import LuaLift.Tree.Tidy

namespace LuaLift

namespace Node

def replace (w : Nat) (b : Body) : Node → Node := withBodies fun j c => if j = w then b else c

def withTest (c : Expr) : Node → Node
  | ifThen _ b => ifThen c b
  | ifElse _ a b => ifElse c a b
  | whileDo _ b => whileDo c b
  | repeatUntil b _ => repeatUntil b c
  | n => n

inductive Choice (v : LocalId) : Node → Node → Expr → Prop
  | mk {c a b : Expr} (op : BinaryOp) (declares : Bool) (l l' : Nat) (hc : c.cells = [⟨.var, v⟩])
      (ha : ⟨.var, v⟩ ∉ a.cells) (hb : ⟨.var, v⟩ ∉ b.cells) :
      Choice v (stmt (.assign ⟨[.var v], [a], declares, l⟩)) (ifThen c [stmt (.assign ⟨[.var v], [b], false, l'⟩)])
        (.binary op a b)

inductive Rule (uses : List LocalId) : Body → Body → Prop
  | choose {v : LocalId} {first second : Node} {e : Expr} (h : Choice v first second e) :
      Rule uses [first, second] [first.setValue e]
  | take {v : LocalId} {first second : Node} {e : Expr} {s s' : Stmt} (h : Choice v first second e)
      (hu : uses.count v = 4) (hr : s.readVars.count v = 1)
      (hs : s.substitute ⟨.var, v⟩ (some e) = (s', none)) : Rule uses [first, second, stmt s] [stmt s']
  | hoist {c : Expr} {a b : Body} (ha : endsInExit a = true) : Rule uses [ifElse c a b] (ifThen c a :: b)
  | test {n : Node} {c c' : Expr} (h : n.condition? = some c) (hc : c'.cells = c.cells) :
      Rule uses [n] [n.withTest c']
  | drop (c : Expr) (a : Body) : Rule uses [ifElse c a []] [ifThen c a]
  | swap (c : Expr) (a b : Body) : Rule uses [ifElse c a b] [ifElse c b a]

theorem stmt_mem_insideEach {f : Body → Tidied} {b : Body} {s : Stmt} (h : stmt s ∈ (insideEach f b).1) :
    stmt s ∈ b := by
  induction b with
  | nil => exact h
  | cons n rest ih =>
    rcases List.mem_cons.1 h with h | h
    · cases n <;> cases h
      exact .head _
    · exact .tail _ (ih h)

/-- A relation of bodies that also holds of the bodies around them. -/
structure Congruence (R : Body → Body → Prop) : Prop where
  refl : ∀ b, R b b
  trans : ∀ {a b c}, R a b → R b c → R a c
  around : ∀ {b b'} (x y : Body), R b b' → R (x ++ b ++ y) (x ++ b' ++ y)
  inside : ∀ {n : Node} {w b b'}, n.bodies[w]? = some b → R b b' → R [n] [n.replace w b']

namespace Congruence

variable {R : Body → Body → Prop} (hR : Congruence R)
include hR

theorem append {a a' b b' : Body} (ha : R a a') (hb : R b b') : R (a ++ b) (a' ++ b') := by
  have h := hR.around [] b ha
  have h' := hR.around a' [] hb
  rw [List.nil_append, List.nil_append] at h
  rw [List.append_nil, List.append_nil] at h'
  exact hR.trans h h'

theorem cons {n n' : Node} {b b' : Body} (hn : R [n] [n']) (hb : R b b') : R (n :: b) (n' :: b') :=
  hR.append hn hb

theorem insideEach_of {f : Body → Tidied} {P : Stmt → Prop} (hf : ∀ b, (∀ s, stmt s ∈ b → P s) → R b (f b).1) :
    (∀ n, (∀ s, stmt s ∈ n.nodes → P s) → R [n] [(Node.inside f n).1]) ∧
      ∀ b, (∀ s, stmt s ∈ nodesOf b → P s) → R b (Node.insideEach f b).1 := by
  have replaced {n : Node} {w : Nat} {b : Body} (hn : n.bodies[w]? = some b) (hb : ∀ s, stmt s ∈ nodesOf b → P s)
      (h : R b (Node.insideEach f b).1) : R [n] [n.replace w (andThen f (Node.insideEach f b)).1] :=
    hR.inside hn (hR.trans h (hf _ fun s hs => hb s (subset_nodesOf b (stmt_mem_insideEach hs))))
  refine tree_induct (fun n ih hn => ?_) (fun _ => hR.refl []) fun n rest ihn ih hb => ?_
  · have inner {b : Body} (hb : b ∈ n.bodies) : ∀ s, stmt s ∈ nodesOf b → P s := by
      intro s hs
      refine hn s ?_
      rw [nodes_eq]
      exact .tail _ (List.mem_flatMap.2 ⟨b, hb, hs⟩)
    cases n with
    | stmt s => exact hR.refl _
    | brk => exact hR.refl _
    | ifElse c a b =>
      have ha : R [ifElse c a b] [ifElse c (andThen f (Node.insideEach f a)).1 b] :=
        replaced (w := 0) rfl (inner (.head _)) (ih a (.head _) (inner (.head _)))
      have hb := inner (.tail _ (.head _))
      exact hR.trans ha (replaced (w := 1) rfl hb (ih b (.tail _ (.head _)) hb))
    | _ => exact replaced (w := 0) (by rfl) (inner (.head _)) (ih _ (.head _) (inner (.head _)))
  · simp only [nodesOf, List.mem_append] at hb
    exact hR.cons (ihn fun s hs => hb s (.inl hs)) (ih fun s hs => hb s (.inr hs))

theorem everywhere_of {f : Body → Tidied} {P : Stmt → Prop} (hf : ∀ b, (∀ s, stmt s ∈ b → P s) → R b (f b).1)
    {b : Body} (hb : ∀ s, stmt s ∈ nodesOf b → P s) : R b (Node.everywhere f b).1 :=
  hR.trans ((hR.insideEach_of hf).2 b hb) (hf _ fun s hs => hb s (subset_nodesOf b (stmt_mem_insideEach hs)))

theorem everywhere {f : Body → Tidied} (hf : ∀ b, R b (f b).1) (b : Body) : R b (Node.everywhere f b).1 :=
  hR.everywhere_of (P := fun _ => True) (fun b _ => hf b) fun _ _ => trivial

end Congruence

theorem cells_normalTest (e : Expr) : (normalTest e).1.cells = e.cells := by
  unfold normalTest
  split
  · next c h =>
    unfold normalTest? at h
    split at h <;> cases h <;> simp only [Expr.cells_unary, Expr.cells_binary]
  · rfl

theorem testedVar?_eq_some {c : Expr} {v : LocalId} {negated : Bool} (h : testedVar? c = some (v, negated)) :
    c.cells = [⟨.var, v⟩] := by
  unfold testedVar? at h
  split at h <;> cases h
  · rfl
  · rfl

theorem assignedValue?_eq_some {v : LocalId} {n : Node} {e : Expr} (h : assignedValue? v n = some e) :
    ∃ d l, n = stmt (.assign ⟨[.var v], [e], d, l⟩) := by
  unfold assignedValue? at h
  split at h
  · next w e d l =>
    split at h <;> cases h
    next hw =>
      subst hw
      exact ⟨d, l, rfl⟩
  · cases h

theorem count_eq_zero {c : Cell} {e : Expr} : e.count c = 0 ↔ c ∉ e.cells := by
  rw [Expr.count, Expr.count_reads]
  exact List.count_eq_zero

theorem chosenValue?_eq_some {first second : Node} {e : Expr} (h : first.chosenValue? second = some e) :
    ∃ v negated c a b d l l', first = stmt (.assign ⟨[.var v], [a], d, l⟩) ∧
      second = ifThen c [stmt (.assign ⟨[.var v], [b], false, l'⟩)] ∧ testedVar? c = some (v, negated) ∧
      e = .binary (if negated then .or else .and) a b ∧ ⟨.var, v⟩ ∉ a.cells ∧ ⟨.var, v⟩ ∉ b.cells := by
  unfold chosenValue? at h
  split at h
  · next c inner =>
    obtain ⟨⟨v, negated⟩, hc, h⟩ := Option.bind_eq_some_iff.1 h
    obtain ⟨a, ha, h⟩ := Option.bind_eq_some_iff.1 h
    obtain ⟨b, hb, h⟩ := Option.bind_eq_some_iff.1 h
    obtain ⟨u, hg, he⟩ := Option.bind_eq_some_iff.1 h
    cases he
    obtain ⟨d, l, rfl⟩ := assignedValue?_eq_some ha
    obtain ⟨d', l', rfl⟩ := assignedValue?_eq_some hb
    by_cases hcond : (!d' && a.count ⟨.var, v⟩ == 0 && b.count ⟨.var, v⟩ == 0) = true
    · simp only [Bool.and_eq_true, Bool.not_eq_true', beq_iff_eq] at hcond
      obtain ⟨⟨rfl, ha0⟩, hb0⟩ := hcond
      exact ⟨v, negated, c, a, b, d, l, l', rfl, rfl, hc, rfl, count_eq_zero.1 ha0, count_eq_zero.1 hb0⟩
    · have hnone : (guard ((!d' && a.count ⟨.var, v⟩ == 0 && b.count ⟨.var, v⟩ == 0) = true) : Option Unit) = none :=
        if_neg hcond
      have := hnone.symm.trans hg
      cases this
  · cases h

theorem choice_of_chosenValue? {first second : Node} {e : Expr} (h : first.chosenValue? second = some e) :
    ∃ v, Choice v first second e := by
  obtain ⟨v, negated, c, a, b, d, l, l', rfl, rfl, hc, rfl, ha, hb⟩ := chosenValue?_eq_some h
  exact ⟨v, .mk _ d l l' (testedVar?_eq_some hc) ha hb⟩

theorem takeValue?_eq_some {uses : List LocalId} {e : Expr} {v : LocalId} {vs : List Expr} {d : Bool} {l : Nat}
    {s : Stmt} {n : Node} (h : takeValue? uses e (stmt (.assign ⟨[.var v], vs, d, l⟩)) (stmt s) = some n) :
    e.hasCall = false ∧ uses.count v = 4 ∧ s.readVars.count v = 1 ∧
      ∃ s', s.substitute ⟨.var, v⟩ (some e) = (s', none) ∧ n = stmt s' := by
  simp only [takeValue?] at h
  split at h
  · cases h
  · next hcond =>
    simp only [Bool.or_eq_true, decide_eq_true_eq, not_or, Decidable.not_not, Bool.not_eq_true] at hcond
    split at h
    · next s' hs =>
      cases h
      exact ⟨hcond.1.1.1, hcond.1.1.2, hcond.1.2, s', hs, rfl⟩
    · cases h

theorem rule_of_takeValue? {uses : List LocalId} {v : LocalId} {first second n : Node} {s : Stmt} {e : Expr}
    (hc : Choice v first second e) (h : takeValue? uses e first (stmt s) = some n) :
    Rule uses [first, second, stmt s] [n] := by
  obtain ⟨op, d, l, l', htest, ha, hb⟩ := hc
  obtain ⟨-, hu, hr, s', hs, rfl⟩ := takeValue?_eq_some h
  exact .take (.mk op d l l' htest ha hb) hu hr hs

namespace Congruence

section Choose

variable {R : Body → Body → Prop} (hR : Congruence R) {uses : List LocalId} {P : Stmt → Prop}
  (hchoose : ∀ {first second e}, first.chosenValue? second = some e → R [first, second] [first.setValue e])
  (htake : ∀ {first second e s n}, P s → first.chosenValue? second = some e →
    takeValue? uses e first (stmt s) = some n → R [first, second, stmt s] [n])
include hR hchoose htake

theorem chooseFrom_of : (first : Node) → (rest : List Node) → (∀ s, stmt s ∈ rest → P s) →
    R (first :: rest) (Node.chooseFrom uses first rest).1
  | first, [], _ => hR.refl _
  | first, [second], _ => by
    unfold Node.chooseFrom
    split
    · next e h => exact hchoose h
    · exact hR.refl _
  | first, second :: third :: rest, hP => by
    have hthird : ∀ s, stmt s ∈ third :: rest → P s := fun s hs => hP s (.tail _ hs)
    have hrest : ∀ s, stmt s ∈ rest → P s := fun s hs => hthird s (.tail _ hs)
    unfold Node.chooseFrom
    split
    · next e h =>
      split
      · next n hn =>
        have hstep : R [first, second, third] [n] := by
          cases third with
          | stmt s => exact htake (hthird s (.head _)) h hn
          | _ => simp [takeValue?] at hn
        exact hR.trans (hR.around [] rest hstep) (chooseFrom_of n rest hrest)
      · exact hR.trans (hR.around [] (third :: rest) (hchoose h)) (chooseFrom_of _ (third :: rest) hthird)
    · exact hR.cons (hR.refl [first]) (chooseFrom_of second (third :: rest) hthird)

theorem chooseIn_of {b : Body} (hb : ∀ s, stmt s ∈ b → P s) : R b (Node.chooseIn uses b).1 := by
  cases b with
  | nil => exact hR.refl _
  | cons n rest => exact hR.chooseFrom_of hchoose htake n rest fun s hs => hb s (.tail _ hs)

end Choose

variable {R : Body → Body → Prop} (hR : Congruence R)
include hR

theorem hoistIn_of (hhoist : ∀ {c a b}, endsInExit a = true → R [ifElse c a b] (ifThen c a :: b)) (b : Body) :
    R b (Node.hoistIn b).1 := by
  induction b with
  | nil => exact hR.refl _
  | cons n rest ih =>
    refine hR.append (a := [n]) ?_ ih
    cases n with
    | ifElse c a b =>
      dsimp only [hoistArm]
      split
      · next h => exact hhoist h
      · exact hR.refl _
    | _ => exact hR.refl _

theorem simplifyIn_of (htest : ∀ n, R [n] [(Node.simplifyTest n).1]) (b : Body) : R b (Node.simplifyIn b).1 := by
  induction b with
  | nil => exact hR.refl _
  | cons n rest ih => exact hR.cons (htest n) ih

variable {uses : List LocalId} (hrule : ∀ {b b'}, Rule uses b b' → R b b')
include hrule

theorem chooseIn (b : Body) : R b (chooseIn uses b).1 := by
  refine hR.chooseIn_of (P := fun _ => True) (fun h => ?_) (fun _ h hn => ?_) fun _ _ => trivial
  · obtain ⟨v, hc⟩ := choice_of_chosenValue? h
    exact hrule (.choose hc)
  · obtain ⟨v, hc⟩ := choice_of_chosenValue? h
    exact hrule (rule_of_takeValue? hc hn)

theorem hoistIn (b : Body) : R b (hoistIn b).1 := hR.hoistIn_of (fun h => hrule (.hoist h)) b

theorem simplifyTest (n : Node) : R [n] [(simplifyTest n).1] := by
  cases n with
  | ifElse c a b =>
    have htest : R [ifElse c a b] [ifElse (normalTest c).1 a b] :=
      hrule (.test (n := ifElse c a b) rfl (cells_normalTest c))
    simp only [Node.simplifyTest]
    split
    · next hb =>
      obtain rfl := List.isEmpty_iff.1 hb
      exact hR.trans htest (hrule (.drop _ a))
    · split
      · have hturn := hrule (.test (n := ifElse (normalTest c).1 a b) rfl (Expr.cells_negate _))
        exact hR.trans htest (hR.trans hturn (hrule (.swap _ a b)))
      · exact htest
  | ifThen c b => exact hrule (.test (n := ifThen c b) rfl (cells_normalTest c))
  | whileDo c b => exact hrule (.test (n := whileDo c b) rfl (cells_normalTest c))
  | repeatUntil b c => exact hrule (.test (n := repeatUntil b c) rfl (cells_normalTest c))
  | _ => exact hR.refl _

theorem simplifyIn (b : Body) : R b (simplifyIn b).1 := hR.simplifyIn_of (hR.simplifyTest hrule) b

end Congruence

theorem Congruence.tidyRound {R : Body → Body → Prop} (hR : Congruence R) {b : Body}
    (hrule : ∀ {x y}, Rule (occurrences b) x y → R x y) : R b (tidyRound b).1 := by
  have hchoose := hR.everywhere (hR.chooseIn hrule) b
  have hhoist := hR.everywhere (hR.hoistIn hrule) (Node.everywhere (Node.chooseIn (occurrences b)) b).1
  exact hR.trans hchoose (hR.trans hhoist (hR.everywhere (hR.simplifyIn hrule) _))

theorem tidy_induct {R : Body → Body → Prop} (refl : ∀ b, R b b) (trans : ∀ {a b c}, R a b → R b c → R a c)
    (round : ∀ b, R b (tidyRound b).1) (b : Body) : R b (tidy b).1 := by
  unfold tidy
  generalize total weight (nodesOf b) + 1 = n
  induction n generalizing b with
  | zero => exact refl _
  | succ n ih =>
    unfold tidyLoop
    split
    next next k hround =>
      split
      · exact refl _
      · have := round b
        rw [hround] at this
        exact trans this (ih next)

theorem neatAll_append {inLoop : Bool} {a b : Body} : NeatAll inLoop (a ++ b) ↔
    NeatAll inLoop a ∧ NeatAll inLoop b ∧ (endsInExit a = true → b = []) := by
  induction a with
  | nil => simp [endsInExit]
  | cons n a ih =>
    rw [List.cons_append, NeatAll, NeatAll, ih]
    cases a with
    | nil =>
      rw [List.nil_append, endsInExit, endsInExit]
      constructor
      · rintro ⟨hn, he, -, hb, -⟩
        exact ⟨⟨hn, fun _ => rfl, trivial⟩, hb, he⟩
      · rintro ⟨⟨hn, -, -⟩, hb, he⟩
        exact ⟨hn, he, trivial, hb, by simp⟩
    | cons m a =>
      rw [endsInExit_cons_cons]
      constructor
      · rintro ⟨hn, he, ha, hb, hx⟩
        exact ⟨⟨hn, fun h => absurd (he h) (by simp), ha⟩, hb, hx⟩
      · rintro ⟨⟨hn, he, ha⟩, hb, hx⟩
        exact ⟨hn, fun h => absurd (he h) (by simp), ha, hb, hx⟩

structure SameExits (b b' : Body) : Prop where
  neat : ∀ inLoop, NeatAll inLoop b → NeatAll inLoop b'
  exit : endsInExit b' = endsInExit b
  nil : b' = [] ↔ b = []

theorem endsInExit_append_congr {a a' b b' : Body} (ha : endsInExit a' = endsInExit a)
    (hb : endsInExit b' = endsInExit b) (hnil : b' = [] ↔ b = []) :
    endsInExit (a' ++ b') = endsInExit (a ++ b) := by
  by_cases h : b = []
  · rw [h, hnil.2 h, List.append_nil, List.append_nil, ha]
  · rw [endsInExit_append h, endsInExit_append fun h' => h (hnil.1 h'), hb]

theorem SameExits.append {a a' b b' : Body} (ha : SameExits a a') (hb : SameExits b b') :
    SameExits (a ++ b) (a' ++ b') := by
  refine ⟨fun inLoop h => ?_, endsInExit_append_congr ha.exit hb.exit hb.nil, ?_⟩
  · obtain ⟨h1, h2, h3⟩ := neatAll_append.1 h
    refine neatAll_append.2 ⟨ha.neat _ h1, hb.neat _ h2, fun he => hb.nil.2 (h3 ?_)⟩
    rw [← ha.exit, he]
  · rw [List.append_eq_nil_iff, List.append_eq_nil_iff, ha.nil, hb.nil]

theorem SameExits.refl (b : Body) : SameExits b b := ⟨fun _ h => h, rfl, .rfl⟩

theorem congruence_sameExits : Congruence SameExits where
  refl := .refl
  trans h h' := ⟨fun _ hn => h'.neat _ (h.neat _ hn), h'.exit.trans h.exit, h'.nil.trans h.nil⟩
  around x y h := ((SameExits.refl x).append h).append (.refl y)
  inside {n w b b'} hb h := by
    have hbody {j : Nat} {c : Body} (hc : n.bodies[j]? = some c) : SameExits c (if j = w then b' else c) := by
      split
      · next hj =>
        subst hj
        rw [hb] at hc
        cases hc
        exact h
      · exact .refl c
    have hexit : (n.replace w b').isExit = n.isExit := isExit_withBodies fun j c hc => (hbody hc).exit
    refine ⟨fun inLoop hn => ?_, ?_, by simp⟩
    · rw [NeatAll, neat_iff] at hn ⊢
      refine ⟨⟨fun he => hn.1.1 ?_, ?_⟩, fun _ => rfl, trivial⟩
      · cases n <;> first | rfl | cases he
      · rw [replace, forall_bodies_withBodies, isLoop_withBodies]
        exact fun j c hc => (hbody hc).neat _ (hn.1.2 c (List.mem_of_getElem? hc))
    · rw [endsInExit, endsInExit, hexit]

theorem Rule.sameExits {uses : List LocalId} {b b' : Body} (h : Rule uses b b') : SameExits b b' := by
  cases h with
  | choose h =>
    obtain ⟨op, d, l, l', -, -, -⟩ := h
    exact ⟨fun _ _ => by simp [setValue], rfl, by simp⟩
  | @take _ _ _ _ s s' h _ _ hs =>
    obtain ⟨op, d, l, l', -, -, -⟩ := h
    refine ⟨fun _ _ => by simp, ?_, by simp⟩
    have hreturn : s'.isReturn = s.isReturn := by
      rw [← Stmt.isReturn_substitute _ s, hs]
    simpa [endsInExit, isExit] using hreturn
  | hoist ha =>
    refine ⟨fun inLoop hn => ?_, ?_, by simp⟩
    · exact ⟨hn.1.1, (fun he => by cases he), hn.1.2⟩
    · rename_i b
      cases b with
      | nil => simp [endsInExit, isExit]
      | cons m b => rw [endsInExit_cons_cons, endsInExit, isExit, ha, Bool.true_and]
  | @test n c c' hc _ => cases n <;> cases hc <;> exact ⟨fun _ hn => hn, rfl, by simp⟩
  | drop c a => exact ⟨fun _ hn => ⟨hn.1.1, by simp [isExit], trivial⟩, by simp [endsInExit, isExit], by simp⟩
  | swap c a b =>
    refine ⟨fun _ hn => ⟨hn.1.symm, fun _ => rfl, trivial⟩, ?_, by simp⟩
    rw [endsInExit, endsInExit, isExit, isExit, Bool.and_comm]

theorem neatAll_tidy {inLoop : Bool} {b : Body} (h : NeatAll inLoop b) : NeatAll inLoop (tidy b).1 :=
  (tidy_induct congruence_sameExits.refl congruence_sameExits.trans
    (fun _ => congruence_sameExits.tidyRound Rule.sameExits) b).neat _ h

end Node

theorem Routine.tidy_eq (r : Routine) : r.tidy = ({ r with body := (Node.tidy r.body).1 }, (Node.tidy r.body).2) := rfl

end LuaLift
