import LuaLift.Proofs.Data.Total
import LuaLift.Proofs.Tree.Tidying
import Mathlib.Data.List.Chain

namespace LuaLift

namespace Node

def weightOf (b : Body) : Nat := total weight (nodesOf b)

@[simp] theorem weightOf_nil : weightOf [] = 0 := rfl

@[simp] theorem weightOf_cons (n : Node) (rest : Body) :
    weightOf (n :: rest) = weight n + total weightOf n.bodies + weightOf rest := by
  rw [weightOf, nodesOf, nodes_eq, List.cons_append, total, total_append, total_flatMap, Nat.add_assoc]
  rfl

theorem weightOf_append (a b : Body) : weightOf (a ++ b) = weightOf a + weightOf b := by
  rw [weightOf, nodesOf_append, total_append, weightOf, weightOf]

@[simp] theorem weight_stmt (s : Stmt) : weight (stmt s) = 1 := rfl

@[simp] theorem weight_ifElse (c : Expr) (a b : Body) : weight (ifElse c a b) = testWeight c + 2 := rfl

@[simp] theorem weight_ifThen (c : Expr) (b : Body) : weight (ifThen c b) = testWeight c + 1 := rfl

theorem testWeight_le (e : Expr) : testWeight e ≤ 2 * leadingNots e + 1 := by
  unfold testWeight
  split
  · exact Nat.le_add_left 1 _
  · exact Nat.le_succ _

theorem testWeight_not (e : Expr) : testWeight (.unary .not e) = 2 * leadingNots e + 2 := rfl

theorem testWeight_normalTest (e : Expr) : testWeight (normalTest e).1 + (normalTest e).2 ≤ testWeight e := by
  unfold normalTest
  split
  · next c h =>
    unfold normalTest? at h
    split at h <;> cases h
    · have := testWeight_le c
      rw [testWeight_not, leadingNots]
      dsimp only
      omega
    · exact Nat.le_refl 2
    · exact Nat.le_succ 1
  · exact Nat.le_refl _

theorem testWeight_negate {e : Expr} (h : isNegation e = true) : testWeight e.negate + 1 ≤ testWeight e := by
  unfold isNegation at h
  split at h
  · next e =>
    have := testWeight_le e
    rw [testWeight_not, Expr.negate]
    omega
  · exact Nat.le_refl 1
  · cases h

def Lowers (f : Body → Tidied) : Prop := ∀ b, weightOf (f b).1 + (f b).2 ≤ weightOf b

theorem weightOf_chosen {first second : Node} {e : Expr} (h : first.chosenValue? second = some e) (rest : Body) :
    weightOf (first.setValue e :: rest) + 2 ≤ weightOf (first :: second :: rest) := by
  obtain ⟨v, negated, c, a, b, d, l, l', rfl, rfl, -, rfl, -, -⟩ := chosenValue?_eq_some h
  simp [setValue, bodies, total]
  omega

theorem weight_of_takeValue? {uses : List LocalId} {e : Expr} {first third n : Node}
    (h : takeValue? uses e first third = some n) (rest : Body) : weightOf (n :: rest) = weightOf (third :: rest) := by
  unfold takeValue? at h
  split at h
  · split at h
    · cases h
    · split at h <;> cases h
      simp [bodies]
  · cases h

theorem lowers_chooseFrom (uses : List LocalId) : (first : Node) → (rest : List Node) →
    weightOf (chooseFrom uses first rest).1 + (chooseFrom uses first rest).2 ≤ weightOf (first :: rest)
  | first, [] => Nat.le_refl _
  | first, [second] => by
    unfold chooseFrom
    split
    · next e h =>
      have := weightOf_chosen h []
      dsimp only
      omega
    · exact Nat.le_refl _
  | first, second :: third :: rest => by
    unfold chooseFrom
    split
    · next e h =>
      have hchosen := weightOf_chosen h (third :: rest)
      split
      · next n hn =>
        -- The assignment goes as well, so that two changes take three nodes.
        have htake := weight_of_takeValue? hn rest
        have hrest := lowers_chooseFrom uses n rest
        rw [weightOf_cons] at hchosen
        dsimp only at hrest ⊢
        omega
      · have hrest := lowers_chooseFrom uses (first.setValue e) (third :: rest)
        dsimp only at hrest ⊢
        omega
    · have hrest := lowers_chooseFrom uses second (third :: rest)
      rw [weightOf_cons first]
      dsimp only at hrest ⊢
      rw [weightOf_cons first]
      omega

theorem lowers_chooseIn (uses : List LocalId) : Lowers (chooseIn uses)
  | [] => Nat.le_refl _
  | n :: rest => lowers_chooseFrom uses n rest

theorem weightOf_hoistArm (n : Node) : weightOf (hoistArm n).1 + (hoistArm n).2 ≤ weightOf [n] := by
  cases n with
  | ifElse c a b =>
    rw [hoistArm]
    split
    · simp [bodies, total]
      omega
    · exact Nat.le_refl _
  | _ => exact Nat.le_refl _

theorem lowers_hoistIn : Lowers hoistIn := by
  intro b
  induction b with
  | nil => exact Nat.le_refl _
  | cons n rest ih =>
    have := weightOf_hoistArm n
    rw [← List.singleton_append, weightOf_append]
    simp only [hoistIn, List.singleton_append, weightOf_append]
    omega

theorem weightOf_simplifyTest (n : Node) : weightOf [(simplifyTest n).1] + (simplifyTest n).2 ≤ weightOf [n] := by
  cases n with
  | ifThen c b | whileDo c b | repeatUntil b c =>
    have := testWeight_normalTest c
    simp [simplifyTest, weight, condition?, bodies, total]
    omega
  | ifElse c a b =>
    have := testWeight_normalTest c
    simp only [simplifyTest]
    split
    · simp [bodies, total]
      omega
    · split
      · next h =>
        have := testWeight_negate h
        simp [bodies, total]
        omega
      · simp [bodies, total]
        omega
  | _ => exact Nat.le_refl _

theorem lowers_simplifyIn : Lowers simplifyIn := by
  intro b
  induction b with
  | nil => exact Nat.le_refl _
  | cons n rest ih =>
    have := weightOf_simplifyTest n
    simp only [simplifyIn, List.map_cons, total, weightOf_cons, weightOf_nil] at this ih ⊢
    omega

theorem Lowers.andThen {f : Body → Tidied} (hf : Lowers f) {b : Body} {t : Tidied}
    (h : weightOf t.1 + t.2 ≤ weightOf b) : weightOf (andThen f t).1 + (andThen f t).2 ≤ weightOf b := by
  have := hf t.1
  simp only [Node.andThen]
  omega

theorem Lowers.insideEach {f : Body → Tidied} (hf : Lowers f) :
    (∀ n, weightOf [(inside f n).1] + (inside f n).2 ≤ weightOf [n]) ∧
      ∀ b, weightOf (insideEach f b).1 + (insideEach f b).2 ≤ weightOf b := by
  refine tree_induct (fun n ih => ?_) (Nat.le_refl _) fun n rest ihn ih => ?_
  · cases n with
    | stmt s => exact Nat.le_refl _
    | brk => exact Nat.le_refl _
    | ifElse c a b =>
      have ha := hf.andThen (ih a (.head _))
      have hb := hf.andThen (ih b (.tail _ (.head _)))
      simp [inside, bodies, total] at ha hb ⊢
      omega
    | _ =>
      have hb := hf.andThen (ih _ (.head _))
      simp [inside, weight, condition?, bodies, total] at hb ⊢
      omega
  · simp only [Node.insideEach, weightOf_cons, weightOf_nil] at ihn ⊢
    omega

theorem Lowers.everywhere {f : Body → Tidied} (hf : Lowers f) : Lowers (everywhere f) :=
  fun b => hf.andThen (hf.insideEach.2 b)

theorem lowers_tidyRound : Lowers tidyRound := by
  intro b
  have hchoose := (lowers_chooseIn (occurrences b)).everywhere b
  have hhoist := lowers_hoistIn.everywhere (everywhere (chooseIn (occurrences b)) b).1
  have hsimplify := lowers_simplifyIn.everywhere (everywhere hoistIn (everywhere (chooseIn (occurrences b)) b).1).1
  simp only [tidyRound]
  omega

def innerBodies (b : Body) : List Body := (nodesOf b).flatMap bodies

theorem mem_innerBodies_cons {n : Node} {rest x : Body} : x ∈ innerBodies (n :: rest) ↔
    (∃ b ∈ n.bodies, x ∈ b :: innerBodies b) ∨ x ∈ innerBodies rest := by
  rw [innerBodies, nodesOf, List.flatMap_append, List.mem_append, flatMap_nodes, List.mem_append, List.mem_flatMap]
  constructor
  · rintro ((h | ⟨b, hb, hx⟩) | h)
    · exact .inl ⟨x, h, .head _⟩
    · exact .inl ⟨b, hb, .tail _ hx⟩
    · exact .inr h
  · rintro (⟨b, hb, hx⟩ | h)
    · rcases List.mem_cons.1 hx with rfl | hx
      · exact .inl (.inl hb)
      · exact .inl (.inr ⟨b, hb, hx⟩)
    · exact .inr h

theorem exists_body_of_mem {b : Body} {m : Node} (h : m ∈ nodesOf b) : ∃ x ∈ b :: innerBodies b, m ∈ x := by
  suffices (∀ n : Node, m ∈ n.nodes → m = n ∨ ∃ b ∈ n.bodies, ∃ x ∈ b :: innerBodies b, m ∈ x) ∧
      ∀ b, m ∈ nodesOf b → ∃ x ∈ b :: innerBodies b, m ∈ x from this.2 b h
  refine tree_induct (fun n ih hm => ?_) (fun hm => by cases hm) fun n rest ihn ih hm => ?_
  · rw [nodes_eq] at hm
    rcases List.mem_cons.1 hm with rfl | hm
    · exact .inl rfl
    · obtain ⟨b, hb, hm⟩ := List.mem_flatMap.1 hm
      exact .inr ⟨b, hb, ih b hb hm⟩
  · rcases List.mem_append.1 hm with hm | hm
    · rcases ihn hm with rfl | ⟨b, hb, x, hx, hm⟩
      · exact ⟨_, .head _, .head _⟩
      · exact ⟨x, .tail _ (mem_innerBodies_cons.2 (.inl ⟨b, hb, hx⟩)), hm⟩
    · obtain ⟨x, hx, hmx⟩ := ih hm
      rcases List.mem_cons.1 hx with rfl | hx
      · exact ⟨_, .head _, List.mem_cons_of_mem _ hmx⟩
      · exact ⟨x, .tail _ (mem_innerBodies_cons.2 (.inr hx)), hmx⟩

section Zero

variable {f : Body → Tidied} (hf : ∀ b, (f b).2 = 0 → f b = (b, 0))
include hf

theorem andThen_of_zero {b : Body}
    (ih : (insideEach f b).2 = 0 → insideEach f b = (b, 0) ∧ ∀ x ∈ innerBodies b, f x = (x, 0))
    (h : (andThen f (insideEach f b)).2 = 0) :
    andThen f (insideEach f b) = (b, 0) ∧ ∀ x ∈ b :: innerBodies b, f x = (x, 0) := by
  simp only [andThen] at h ⊢
  obtain ⟨he, hx⟩ := ih (by omega)
  simp only [he, Nat.zero_add] at h ⊢
  have hb := hf b h
  rw [hb]
  exact ⟨rfl, List.forall_mem_cons.2 ⟨hb, hx⟩⟩

theorem insideEach_of_zero :
    (∀ n, (inside f n).2 = 0 →
      inside f n = (n, 0) ∧ ∀ b ∈ n.bodies, ∀ x ∈ b :: innerBodies b, f x = (x, 0)) ∧
      ∀ b, (insideEach f b).2 = 0 → insideEach f b = (b, 0) ∧ ∀ x ∈ innerBodies b, f x = (x, 0) := by
  refine tree_induct (fun n ih h => ?_) (fun _ => ⟨rfl, by simp [innerBodies]⟩) fun n rest ihn ih h => ?_
  · cases n with
    | stmt s => exact ⟨rfl, by simp [bodies]⟩
    | brk => exact ⟨rfl, by simp [bodies]⟩
    | ifElse c a b =>
      simp only [inside] at h
      obtain ⟨ha, hxa⟩ := andThen_of_zero hf (ih a (.head _)) (by omega)
      obtain ⟨hb, hxb⟩ := andThen_of_zero hf (ih b (.tail _ (.head _))) (by omega)
      rw [inside, ha, hb, bodies, List.forall_mem_cons, List.forall_mem_singleton]
      exact ⟨rfl, hxa, hxb⟩
    | _ =>
      obtain ⟨hb, hx⟩ := andThen_of_zero hf (ih _ (.head _)) h
      rw [inside, hb, bodies, List.forall_mem_singleton]
      exact ⟨rfl, hx⟩
  · simp only [insideEach] at h
    obtain ⟨hn, hxn⟩ := ihn (by omega)
    obtain ⟨hr, hxr⟩ := ih (by omega)
    refine ⟨by rw [insideEach, hn, hr], fun x hx => ?_⟩
    rcases mem_innerBodies_cons.1 hx with ⟨b, hb, hx⟩ | hx
    · exact hxn b hb x hx
    · exact hxr x hx

theorem everywhere_of_zero {b : Body} (h : (everywhere f b).2 = 0) :
    everywhere f b = (b, 0) ∧ ∀ x ∈ b :: innerBodies b, f x = (x, 0) :=
  andThen_of_zero hf ((insideEach_of_zero hf).2 b) h

end Zero

theorem chooseFrom_of_zero {uses : List LocalId} : (first : Node) → (rest : List Node) →
    (chooseFrom uses first rest).2 = 0 → chooseFrom uses first rest = (first :: rest, 0) ∧
      (first :: rest).IsChain fun x y => x.chosenValue? y = none
  | first, [], _ => ⟨rfl, .singleton _⟩
  | first, [second], h => by
    unfold chooseFrom at h ⊢
    split at h
    · cases h
    · next hnone => exact ⟨rfl, .cons_cons hnone (.singleton _)⟩
  | first, second :: third :: rest, h => by
    unfold chooseFrom at h ⊢
    split at h
    · split at h <;> cases h
    · next hnone =>
      obtain ⟨he, hchain⟩ := chooseFrom_of_zero second (third :: rest) h
      rw [he]
      exact ⟨rfl, .cons_cons hnone hchain⟩

theorem chooseIn_of_zero {uses : List LocalId} {b : Body} (h : (chooseIn uses b).2 = 0) :
    chooseIn uses b = (b, 0) ∧ b.IsChain fun x y => x.chosenValue? y = none := by
  cases b with
  | nil => exact ⟨rfl, .nil⟩
  | cons n rest => exact chooseFrom_of_zero n rest h

theorem hoistArm_of_zero {n : Node} (h : (hoistArm n).2 = 0) : hoistArm n = ([n], 0) := by
  cases n with
  | ifElse c a b =>
    rw [hoistArm] at h ⊢
    split at h
    · cases h
    · next ha => exact if_neg ha
  | _ => rfl

theorem hoistIn_of_zero {b : Body} (h : (hoistIn b).2 = 0) :
    hoistIn b = (b, 0) ∧ ∀ n ∈ b, (hoistArm n).2 = 0 := by
  induction b with
  | nil => exact ⟨rfl, by simp⟩
  | cons n rest ih =>
    simp only [hoistIn] at h ⊢
    have hn : (hoistArm n).2 = 0 := by omega
    obtain ⟨he, hr⟩ := ih (by omega)
    rw [hoistArm_of_zero hn, he]
    exact ⟨rfl, List.forall_mem_cons.2 ⟨hn, hr⟩⟩

theorem normalTest_of_zero {e : Expr} (h : (normalTest e).2 = 0) : normalTest? e = none ∧ normalTest e = (e, 0) := by
  unfold normalTest at h ⊢
  split at h
  · cases h
  · next hnone => exact ⟨hnone, rfl⟩

theorem simplifyTest_of_zero {n : Node} (h : (simplifyTest n).2 = 0) : simplifyTest n = (n, 0) := by
  cases n with
  | ifThen c b | whileDo c b | repeatUntil b c =>
    have hc : (normalTest c).2 = 0 := h
    simp only [simplifyTest, (normalTest_of_zero hc).2]
  | ifElse c a b =>
    simp only [simplifyTest] at h ⊢
    split at h
    · cases h
    · next hb =>
      split at h
      · cases h
      · next hc =>
        have hzero := (normalTest_of_zero h).2
        rw [hzero] at hc
        simp only [hzero, hb, hc, if_false, Bool.false_eq_true]
  | _ => rfl

theorem simplifyIn_of_zero {b : Body} (h : (simplifyIn b).2 = 0) :
    simplifyIn b = (b, 0) ∧ ∀ n ∈ b, (simplifyTest n).2 = 0 := by
  induction b with
  | nil => exact ⟨rfl, by simp⟩
  | cons n rest ih =>
    simp only [simplifyIn, List.map_cons, total] at h ih ⊢
    have hn : (simplifyTest n).2 = 0 := by omega
    obtain ⟨he, hr⟩ := ih (by omega)
    rw [Prod.mk.injEq] at he
    rw [simplifyTest_of_zero hn, he.1, he.2]
    exact ⟨rfl, List.forall_mem_cons.2 ⟨hn, hr⟩⟩

structure Still (b : Body) : Prop where
  chosen : ∀ x ∈ b :: innerBodies b, x.IsChain fun m n => m.chosenValue? n = none
  hoisted : ∀ n ∈ nodesOf b, (hoistArm n).2 = 0
  simplified : ∀ n ∈ nodesOf b, (simplifyTest n).2 = 0

theorem tidyRound_of_zero {b : Body} (h : (tidyRound b).2 = 0) : tidyRound b = (b, 0) ∧ Still b := by
  simp only [tidyRound] at h
  have choose (h : (everywhere (chooseIn (occurrences b)) b).2 = 0) :=
    everywhere_of_zero (fun x hx => (chooseIn_of_zero hx).1) h
  have hoist (h : (everywhere hoistIn b).2 = 0) := everywhere_of_zero (fun x hx => (hoistIn_of_zero hx).1) h
  have simplify (h : (everywhere simplifyIn b).2 = 0) :=
    everywhere_of_zero (fun x hx => (simplifyIn_of_zero hx).1) h
  obtain ⟨hc, hchosen⟩ := choose (by omega)
  simp only [hc] at h
  obtain ⟨hh, hhoisted⟩ := hoist (by omega)
  simp only [hh] at h
  obtain ⟨hs, hsimplified⟩ := simplify (by omega)
  refine ⟨by simp only [tidyRound, hc, hh, hs], fun x hx => ?_, fun n hn => ?_, fun n hn => ?_⟩
  · exact (chooseIn_of_zero (by rw [hchosen x hx])).2
  · obtain ⟨x, hx, hn⟩ := exists_body_of_mem hn
    exact (hoistIn_of_zero (by rw [hhoisted x hx])).2 n hn
  · obtain ⟨x, hx, hn⟩ := exists_body_of_mem hn
    exact (simplifyIn_of_zero (by rw [hsimplified x hx])).2 n hn

inductive Foldable : Node → Node → Prop
  | mk {v : LocalId} {c a b : Expr} (d : Bool) (l l' : Nat) (hc : c = .var v ∨ c = .unary .not (.var v))
      (ha : ⟨.var, v⟩ ∉ a.cells) (hb : ⟨.var, v⟩ ∉ b.cells) :
      Foldable (stmt (.assign ⟨[.var v], [a], d, l⟩)) (ifThen c [stmt (.assign ⟨[.var v], [b], false, l'⟩)])

structure Normal (b : Body) : Prop where
  nonempty : ∀ c x y, ifElse c x y ∈ nodesOf b → y ≠ []
  guards : ∀ c x y, ifElse c x y ∈ nodesOf b → endsInExit x = false
  positive : ∀ c x y, ifElse (.unary .not c) x y ∉ nodesOf b
  equal : ∀ d e x y, ifElse (.binary .ne d e) x y ∉ nodesOf b
  tests : ∀ n ∈ nodesOf b, ∀ c, n.condition? = some (.unary .not c) →
    (∀ e, c ≠ .unary .not e) ∧ (∀ d e, c ≠ .binary .eq d e) ∧ ∀ d e, c ≠ .binary .ne d e
  chosen : ∀ x ∈ b :: innerBodies b, ∀ l m n r, x = l ++ m :: n :: r → ¬Foldable m n

theorem Foldable.chosenValue? {m n : Node} (h : Foldable m n) : m.chosenValue? n ≠ none := by
  obtain @⟨v, c, a, b, d, l, l', hc, ha, hb⟩ := h
  have hguard : (!false && a.count ⟨.var, v⟩ == 0 && b.count ⟨.var, v⟩ == 0) = true := by
    rw [count_eq_zero.2 ha, count_eq_zero.2 hb]
    rfl
  have hchosen (negated : Bool) (hc : testedVar? c = some (v, negated)) :
      (stmt (.assign ⟨[.var v], [a], d, l⟩)).chosenValue? (ifThen c [stmt (.assign ⟨[.var v], [b], false, l'⟩)]) =
        some (.binary (if negated then .or else .and) a b) :=
    Option.bind_eq_some_iff.2 ⟨(v, negated), hc, Option.bind_eq_some_iff.2 ⟨a, if_pos rfl,
      Option.bind_eq_some_iff.2 ⟨b, if_pos rfl, Option.bind_eq_some_iff.2 ⟨(), if_pos hguard, rfl⟩⟩⟩⟩
  rcases hc with rfl | rfl
  · rw [hchosen false rfl]
    exact Option.some_ne_none _
  · rw [hchosen true rfl]
    exact Option.some_ne_none _

theorem ifElse_of_still {c : Expr} {x y : Body} (hh : (hoistArm (ifElse c x y)).2 = 0)
    (hs : (simplifyTest (ifElse c x y)).2 = 0) : y ≠ [] ∧ endsInExit x = false ∧ isNegation c = false := by
  simp only [simplifyTest] at hs
  split at hs
  · cases hs
  · next hy =>
    split at hs
    · cases hs
    · next hc =>
      rw [(normalTest_of_zero hs).2, Bool.not_eq_true] at hc
      refine ⟨fun he => hy (by rw [he]; rfl), ?_, hc⟩
      rw [hoistArm] at hh
      split at hh
      · cases hh
      · next hx => exact Bool.not_eq_true _ ▸ hx

theorem normalTest?_of_still {n : Node} {c : Expr} (hn : n.condition? = some c) (hs : (simplifyTest n).2 = 0) :
    normalTest? c = none := by
  cases n with
  | ifElse d x y =>
    cases hn
    simp only [simplifyTest] at hs
    split at hs
    · cases hs
    · split at hs
      · cases hs
      · exact (normalTest_of_zero hs).1
  | ifThen d x | whileDo d x | repeatUntil x d =>
    cases hn
    exact (normalTest_of_zero hs).1
  | _ => cases hn

theorem Still.normal {b : Body} (h : Still b) : Normal b where
  nonempty c x y hn := (ifElse_of_still (h.hoisted _ hn) (h.simplified _ hn)).1
  guards c x y hn := (ifElse_of_still (h.hoisted _ hn) (h.simplified _ hn)).2.1
  positive c x y hn := by
    have := (ifElse_of_still (h.hoisted _ hn) (h.simplified _ hn)).2.2
    cases this
  equal d e x y hn := by
    have := (ifElse_of_still (h.hoisted _ hn) (h.simplified _ hn)).2.2
    cases this
  tests n hn c hc := by
    have hnone := normalTest?_of_still hc (h.simplified n hn)
    refine ⟨?_, ?_, ?_⟩
    · rintro e rfl
      cases hnone
    · rintro d e rfl
      cases hnone
    · rintro d e rfl
      cases hnone
  chosen x hx l m n r he hf := by
    have := h.chosen x hx
    rw [he, List.isChain_append, List.isChain_cons_cons] at this
    exact hf.chosenValue? this.2.1.1

inductive Rounds : Body → Body → Nat → Prop where
  | stop {b : Body} (h : (tidyRound b).2 = 0) : Rounds b (tidyRound b).1 0
  | round {b b' : Body} {k : Nat} (h : (tidyRound b).2 ≠ 0) (rest : Rounds (tidyRound b).1 b' k) :
    Rounds b b' ((tidyRound b).2 + k)

theorem rounds_tidyLoop {n : Nat} {b : Body} (hn : weightOf b < n) :
    Rounds b (tidyLoop n b).1 (tidyLoop n b).2 ∧ (tidyRound (tidyLoop n b).1).2 = 0 := by
  induction n generalizing b with
  | zero => cases hn
  | succ n ih =>
    rw [tidyLoop]
    dsimp only
    split
    · next hzero =>
      have := Rounds.stop hzero
      rw [(tidyRound_of_zero hzero).1] at this
      exact ⟨this, hzero⟩
    · next hchanged =>
      have := lowers_tidyRound b
      obtain ⟨hrounds, hlast⟩ := ih (b := (tidyRound b).1) (by omega)
      exact ⟨.round hchanged hrounds, hlast⟩

theorem rounds_tidy (b : Body) : Rounds b (tidy b).1 (tidy b).2 ∧ (tidyRound (tidy b).1).2 = 0 :=
  rounds_tidyLoop (Nat.lt_succ_self _)

theorem tidy_of_zero {b : Body} (h : (tidyRound b).2 = 0) : tidy b = (b, 0) := by
  rw [tidy, tidyLoop]
  simp only [h, if_true]

end Node

/-- The rounds come to an end, what they leave is in normal form, and a second call changes nothing. -/
theorem Routine.tidy_normal (r : Routine) : Node.Rounds r.body r.tidy.1.body r.tidy.2 ∧
    Node.Normal r.tidy.1.body ∧ r.tidy.1.tidy = (r.tidy.1, 0) := by
  obtain ⟨hrounds, hlast⟩ := Node.rounds_tidy r.body
  have hnormal := (Node.tidyRound_of_zero hlast).2.normal
  have hagain := Node.tidy_of_zero hlast
  rw [r.tidy_eq, tidy_eq]
  exact ⟨hrounds, hnormal, by rw [hagain]⟩

/-! Turning a test round brings an exit in front of an else arm, which then moves out. -/
open Node in
example : Node.tidy [ifElse (.unary .not (.global "c")) [stmt (.call (.global "f") [] 0)] [stmt (.ret [] 0)]] =
    ([ifThen (.global "c") [stmt (.ret [] 0)], stmt (.call (.global "f") [] 0)], 2) := rfl

end LuaLift
