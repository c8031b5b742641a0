import LuaLift.Proofs.Tree.Outcomes

namespace LuaLift

open Node Runs

variable {V W : Type}

namespace Effects

variable {M : Effects V W} {hidden : List Cell}

theorem eval_binary (op : BinaryOp) (a b : Expr) (e : Env V W) : M.eval (.binary op a b) e =
    if M.decided op (M.first (M.eval a e).1) then ([M.first (M.eval a e).1], (M.eval a e).2)
    else ([M.applyBinary op (M.first (M.eval a e).1) (M.first (M.eval b (M.eval a e).2).1)],
      (M.eval b (M.eval a e).2).2) := by
  have h : M.eval (.binary op a b) e = (if M.decided op (M.first (M.eval a e).1) then pure [M.first (M.eval a e).1]
      else do
        let y ← M.eval b
        pure [M.applyBinary op (M.first (M.eval a e).1) (M.first y)] : StateM (Env V W) (List V)) (M.eval a e).2 := rfl
  rw [h]
  split <;> rfl

theorem test_of_testedVar? {c : Expr} {v : LocalId} {negated : Bool} (h : testedVar? c = some (v, negated))
    (e : Env V W) : M.test c e = (M.truthy (e.cell ⟨.var, v⟩) != negated, e) := by
  unfold testedVar? at h
  split at h <;> cases h
  · exact Prod.ext (Bool.bne_false _).symm rfl
  · refine Prod.ext ?_ rfl
    exact (M.truthy_boolean _).trans (Bool.bne_true _).symm

namespace Blind

variable (hM : M.Blind hidden) {v : LocalId} (hv : ⟨.var, v⟩ ∈ hidden)
include hM hv

theorem run_assign (a : Expr) (d : Bool) (l : Nat) (e : Env V W) :
    M.run (.assign ⟨[.var v], [a], d, l⟩) e = (M.eval a e).2.set ⟨.var, v⟩ (M.first (M.eval a e).1) := by
  cases d with
  | false => rfl
  | true =>
    have h : (M.declare [v] (M.eval a e).2).apart [⟨.var, v⟩] = (M.eval a e).2.apart [⟨.var, v⟩] := by
      refine Env.apart_of_keeps (rfl : e.apart [⟨.var, v⟩] = e.apart [⟨.var, v⟩]) (hM.declare_hidden (by simpa using hv) _) fun c hc hne _ => ?_
      rw [hM.declare_cell hc]
      exact if_neg hne
    exact Env.set_eq_of_apart h _

variable {negated : Bool} {op : BinaryOp} {c a b : Expr} (hc : testedVar? c = some (v, negated))
  (hop : op = if negated then .or else .and) (hb : ⟨.var, v⟩ ∉ b.cells)
include hc hop hb

theorem run_chosen (d : Bool) (l l' : Nat) (e : Env V W) :
    (if M.truthy (M.first (M.eval a e).1) != negated then
      M.run (.assign ⟨[.var v], [b], false, l'⟩) (M.run (.assign ⟨[.var v], [a], d, l⟩) e)
    else M.run (.assign ⟨[.var v], [a], d, l⟩) e) =
      M.run (.assign ⟨[.var v], [.binary op a b], d, l⟩) e := by
  have hdecided : M.decided op (M.first (M.eval a e).1) =
      !(M.truthy (M.first (M.eval a e).1) != negated) := by
    rw [hop]
    cases negated <;> simp [decided]
  have happly (x y : V) : M.applyBinary op x y = y := by
    rw [hop]
    cases negated <;> rfl
  simp only [hM.run_assign hv, eval_binary, hdecided, happly]
  generalize hx : M.first (M.eval a e).1 = x
  cases M.truthy x != negated with
  | false => rfl
  | true =>
    -- what `b` evaluates to does not depend on the variable
    have hcells : ∀ d ∈ b.cells, ∀ e e' : Env V W, e.apart [⟨.var, v⟩] = e'.apart [⟨.var, v⟩] →
        e.cell d = e'.cell d := by
      intro d hd e e' h
      refine (Env.apart_eq_apart.1 h).1 d ?_
      rintro hmem
      rw [List.mem_singleton.1 hmem] at hd
      exact hb hd
    obtain ⟨hvalue, hstate⟩ := sides_eval (hM.respects (List.cons_subset.2 ⟨hv, List.nil_subset _⟩)) b hcells
      (fun _ _ _ => trivial) ((M.eval a e).2.set ⟨.var, v⟩ x) (M.eval a e).2 (Env.apart_set (.head _))
    simp only [if_true, Bool.not_true, Bool.false_eq_true, if_false, hvalue]
    exact Env.set_eq_of_apart hstate _

theorem leads_chosen {d : Bool} {l l' : Nat} {e e' : Env V W} {y : Ending} :
    Leads M (runsOf [stmt (.assign ⟨[.var v], [a], d, l⟩), ifThen c [stmt (.assign ⟨[.var v], [b], false, l'⟩)]])
      e y e' ↔ y = .through ∧ M.run (.assign ⟨[.var v], [.binary op a b], d, l⟩) e = e' := by
  set first := Stmt.assign ⟨[.var v], [a], d, l⟩
  set inner := Stmt.assign ⟨[.var v], [b], false, l'⟩
  have htest (holds : Bool) (e₁ e₂ : Env V W) : M.act (.test c holds) e₁ = some e₂ ↔
      (M.truthy (e₁.cell ⟨.var, v⟩) != negated) = holds ∧ e₁ = e₂ := by
    simp only [act, test_of_testedVar? hc]
    split
    · next h => simp [h]
    · next h => simp [h]
  have hcell : (M.run first e).cell ⟨.var, v⟩ = M.first (M.eval a e).1 := by
    rw [hM.run_assign hv, Env.cell_set_self]
  have hfirst {x : Ending} {e₁ e₂ : Env V W} : Leads M (stmt first).runs e₁ x e₂ ↔ x = .through ∧ M.run first e₁ = e₂ := by
    rw [← runsOf_singleton]
    exact leads_stmt
  have hinner {x : Ending} {e₁ e₂ : Env V W} : Leads M (runsOf [stmt inner]) e₁ x e₂ ↔ x = .through ∧ M.run inner e₁ = e₂ :=
    leads_stmt
  have hifThen : ((ifThen c [stmt inner]).runs : Runs V) =
      either (seq (does (.test c true)) (runsOf [stmt inner])) (does (.test c false)) := by rw [runs]
  rw [← hM.run_chosen hv hc hop hb d l l' e, runsOf_cons, runsOf_singleton, hifThen]
  simp only [does, leads_seq, leads_either, leads_only, hfirst, hinner, htest]
  constructor
  · rintro (⟨⟨rfl, -⟩, hne⟩ | ⟨e₁, ⟨-, rfl⟩, h⟩)
    · exact absurd rfl hne
    · rcases h with (⟨⟨rfl, -⟩, hne⟩ | ⟨e₂, ⟨-, ht, rfl⟩, rfl, rfl⟩) | ⟨rfl, ht, rfl⟩
      · exact absurd rfl hne
      · rw [hcell] at ht
        exact ⟨rfl, if_pos ht⟩
      · rw [hcell] at ht
        exact ⟨rfl, if_neg (by rw [ht]; exact Bool.false_ne_true)⟩
  · rintro ⟨rfl, rfl⟩
    refine .inr ⟨M.run first e, ⟨trivial, rfl⟩, ?_⟩
    rw [hcell]
    cases ht : M.truthy (M.first (M.eval a e).1) != negated with
    | true => exact .inl (.inr ⟨M.run first e, ⟨trivial, rfl, rfl⟩, rfl, (if_pos rfl).symm⟩)
    | false => exact .inr ⟨rfl, rfl, (if_neg Bool.false_ne_true).symm⟩

omit hc hop hb in
theorem run_setChosen (d : Bool) (l : Nat) (e : Env V W) (hcall : (Expr.binary op a b).hasCall = false) :
    ∃ w, (M.eval (.binary op a b) e).1 = [w] ∧
      M.run (.assign ⟨[.var v], [.binary op a b], d, l⟩) e = e.set ⟨.var, v⟩ w := by
  have hone : ∃ w, (M.eval (.binary op a b) e).1 = [w] := by
    rw [eval_binary]
    split <;> exact ⟨_, rfl⟩
  obtain ⟨w, hw⟩ := hone
  refine ⟨w, hw, ?_⟩
  rw [hM.run_assign hv, eval_of_noCall hcall, hw]
  rfl

end Blind

end Effects

theorem Expr.steady_substitute {hidden : List Cell} (c : Cell) : (a : Expr) → (o : Option Expr) →
    a.steady hidden = true → (∀ x ∈ o, x.steady hidden = true) →
    (a.substitute c o).1.steady hidden = true ∧ ∀ x ∈ (a.substitute c o).2, x.steady hidden = true
  | .slot s, o, ha, ho | .var v, o, ha, ho => by
    rw [substitute]
    split
    · cases o with
      | none => exact ⟨ha, ho⟩
      | some x => exact ⟨ho x rfl, fun _ h => by cases h⟩
    · exact ⟨ha, ho⟩
  | .constant k, o, ha, ho | .vararg, o, ha, ho => ⟨rfl, ho⟩
  | .unary op a, o, ha, ho => by
    rw [steady, Bool.and_eq_true] at ha
    simp only [substitute, steady, Bool.and_eq_true]
    have := steady_substitute c a o ha.2 ho
    exact ⟨⟨ha.1, this.1⟩, this.2⟩
  | .binary op a b, o, ha, ho => by
    rw [steady, Bool.and_eq_true] at ha
    simp only [substitute, steady, Bool.and_eq_true]
    have hleft := steady_substitute c a o ha.1 ho
    have hright := steady_substitute c b _ ha.2 hleft.2
    exact ⟨⟨hleft.1, hright.1⟩, hright.2⟩

namespace Node

def tested? : Node → Option LocalId
  | ifThen c _ => (testedVar? c).map (·.1)
  | _ => none

section Sheltered

variable (hidden : List Cell) (fixed loose : LocalId → Prop) (uses : List LocalId)

structure Lasting (e : Expr) : Prop where
  steady : e.steady hidden = true
  strict : ∀ u, ⟨.var, u⟩ ∈ e.cells → ¬ loose u

/-- No closure captures a variable that is tested, and fixed variables have lasting values. A variable whose
value may be taken is fixed or loose. -/
structure Sheltered (n : Node) : Prop where
  tested : ∀ v ∈ n.tested?, ⟨.var, v⟩ ∈ hidden ∧ (uses.count v = 4 → fixed v ∨ loose v)
  value : ∀ {v e}, n.assignedValue? v = some e → fixed v → Lasting hidden loose e

def Takes (s : Stmt) : Prop := ∀ v ∈ s.readVars, loose v → ∀ n ∈ Expr.nodesList s.operands, n.isCall = false

end Sheltered

section

variable {hidden : List Cell} {fixed loose : LocalId → Prop} {uses : List LocalId}

theorem sheltered_withBodies {n : Node} {g : Nat → Body → Body} (h : Sheltered hidden fixed loose uses n) :
    Sheltered hidden fixed loose uses (n.withBodies g) := by
  have htested : (n.withBodies g).tested? = n.tested? := by cases n <;> rfl
  have hvalue (v : LocalId) : (n.withBodies g).assignedValue? v = n.assignedValue? v := by cases n <;> rfl
  exact ⟨htested ▸ h.tested, fun he => h.value (hvalue _ ▸ he)⟩

theorem sheltered_assign {v : LocalId} {e : Expr} {d : Bool} {l : Nat}
    (h : fixed v → Lasting hidden loose e) : Sheltered hidden fixed loose uses (stmt (.assign ⟨[.var v], [e], d, l⟩)) := by
  refine ⟨fun _ h => (by cases h), fun {u x} hx hu => ?_⟩
  rw [assignedValue?] at hx
  split at hx
  · next huv =>
    subst huv
    cases hx
    exact h hu
  · cases hx

theorem assignedValue?_stmt (v : LocalId) (e : Expr) (d : Bool) (l : Nat) :
    (stmt (.assign ⟨[.var v], [e], d, l⟩)).assignedValue? v = some e := if_pos rfl

theorem Lasting.substitute {c : Cell} {a a' x : Expr} (ha : Lasting hidden loose a)
    (hx : Lasting hidden loose x) (hs : a.substitute c (some x) = (a', none)) : Lasting hidden loose a' := by
  have hsteady := Expr.steady_substitute c a (some x) ha.steady fun y hy => by
    cases hy
    exact hx.steady
  have hsub := Expr.substituted c a (some x)
  rw [hs] at hsteady hsub
  refine ⟨hsteady.1, fun u hu => ?_⟩
  have hcount := hsub.count ⟨.var, u⟩
  have hpos := List.count_pos_iff.2 hu
  simp only at hcount
  rcases Nat.eq_zero_or_pos (a.cells.count ⟨.var, u⟩) with h | h
  · exact hx.strict u (List.count_pos_iff.1 (by omega))
  · exact ha.strict u (List.count_pos_iff.1 h)

theorem assignedValue?_substitute {c : Cell} {s s' : Stmt} {x e : Expr} {v : LocalId}
    (hs : s.substitute c (some x) = (s', none)) (h : (stmt s').assignedValue? v = some e) :
    ∃ a d l, s = .assign ⟨[.var v], [a], d, l⟩ ∧ a.substitute c (some x) = (e, none) := by
  obtain ⟨d, l, hs'⟩ := assignedValue?_eq_some h
  cases hs'
  cases s with
  | assign a =>
    obtain ⟨targets, values, d', l'⟩ := a
    simp only [Stmt.substitute, Prod.mk.injEq, Stmt.assign.injEq, Assignment.mk.injEq] at hs
    obtain ⟨⟨htargets, hvalues, rfl, rfl⟩, hnone⟩ := hs
    cases targets with
    | nil => cases htargets
    | cons t ts =>
      cases ts with
      | cons t' ts => simp [Stmt.substituteTargets] at htargets
      | nil =>
        have ht := (List.cons.inj htargets).1
        cases t with
        | index y z => simp at ht
        | var u =>
          cases ht
          cases values with
          | nil => cases hvalues
          | cons a as =>
            cases as with
            | cons a' as => cases hvalues
            | nil => exact ⟨a, d', l', rfl, Prod.ext (List.cons.inj hvalues).1 hnone⟩
        | _ => cases ht
  | _ => cases hs

theorem tally_eq_zero {α : Type} [DecidableEq α] {h : Node → List α} {x : α} {b : Body} :
    tally h x b = 0 ↔ ∀ n ∈ nodesOf b, x ∉ h n := by
  rw [tally, List.count_eq_zero, List.mem_flatMap]
  push Not
  rfl

theorem forall_nodesOf_single {P : Node → Prop} {n : Node} :
    (∀ m ∈ nodesOf [n], P m) ↔ P n ∧ ∀ b ∈ n.bodies, ∀ m ∈ nodesOf b, P m := by
  simp only [nodesOf, List.append_nil, nodes_eq, List.forall_mem_cons, List.mem_flatMap]
  exact and_congr_right fun _ => ⟨fun h b hb m hm => h m ⟨b, hb, hm⟩, fun h m ⟨b, hb, hm⟩ => h b hb m hm⟩

theorem forall_nodesOf_withBodies {P : Node → Prop} {n : Node} {g : Nat → Body → Body} :
    (∀ m ∈ nodesOf [n.withBodies g], P m) ↔
      P (n.withBodies g) ∧ ∀ w b, n.bodies[w]? = some b → ∀ m ∈ nodesOf (g w b), P m := by
  rw [forall_nodesOf_single, forall_bodies_withBodies]

variable (hidden fixed loose uses)

structure Admitted (b : Body) : Prop where
  counted : ∀ v, tally cells ⟨.var, v⟩ b ≤ uses.count v
  sheltered : ∀ n ∈ nodesOf b, Sheltered hidden fixed loose uses n

/-- A tree in the place of another one. It names nothing more, and a cell that it does not name any more is
a hidden variable without occurrences elsewhere. But for these cells it leads to the same. -/
structure Chosen (M : Effects V W) (b b' : Body) : Prop where
  le : ∀ c, tally cells c b' ≤ tally cells c b
  gone : ∀ {c}, tally cells c b' = 0 → tally cells c b ≠ 0 →
    c ∈ hidden ∧ ∃ v, c = ⟨.var, v⟩ ∧ tally cells c b = uses.count v
  sheltered : ∀ n ∈ nodesOf b', Sheltered hidden fixed loose uses n
  outcomes : ∀ {Z}, Z ⊆ hidden → (∀ c ∈ Z, tally cells c b' = 0) →
    (∀ c, tally cells c b' = 0 → tally cells c b ≠ 0 → c ∈ Z) → SameOutcomes M Z (runsOf b) (runsOf b')

variable {hidden fixed loose uses} {M : Effects V W}

theorem Chosen.counted {b b' : Body} (h : Chosen hidden fixed loose uses M b b') (hb : Admitted hidden fixed loose uses b) :
    Admitted hidden fixed loose uses b' := ⟨fun v => Nat.le_trans (h.le _) (hb.counted v), h.sheltered⟩

theorem Admitted.part {b : Body} (x y : Body) (h : Admitted hidden fixed loose uses (x ++ b ++ y)) :
    Admitted hidden fixed loose uses b := by
  refine ⟨fun v => ?_, fun n hn => h.sheltered n ?_⟩
  · have := h.counted v
    rw [tally_append, tally_append] at this
    omega
  · rw [nodesOf_append, nodesOf_append]
    exact List.mem_append_left _ (List.mem_append_right _ hn)

theorem tally_body_le {n : Node} {w : Nat} {b : Body} (hn : n.bodies[w]? = some b) (c : Cell) :
    tally cells c b ≤ tally cells c [n] := by
  have := tally_replace cells c hn (c := []) cells_withBodies
  rw [tally_nil] at this
  omega

theorem Admitted.body {n : Node} {w : Nat} {b : Body} (h : Admitted hidden fixed loose uses [n])
    (hn : n.bodies[w]? = some b) : Admitted hidden fixed loose uses b :=
  ⟨fun v => Nat.le_trans (tally_body_le hn _) (h.counted v),
    (forall_nodesOf_single.1 h.sheltered).2 b (List.mem_of_getElem? hn)⟩

theorem Chosen.trans {a b c : Body} (ha : Admitted hidden fixed loose uses a) (h : Chosen hidden fixed loose uses M a b)
    (h' : Chosen hidden fixed loose uses M b c) : Chosen hidden fixed loose uses M a c where
  le d := Nat.le_trans (h'.le d) (h.le d)
  gone {d} hc hne := by
    by_cases hb : tally cells d b = 0
    · exact h.gone hb hne
    · obtain ⟨hd, v, rfl, hcount⟩ := h'.gone hc hb
      exact ⟨hd, v, rfl, Nat.le_antisymm (ha.counted v) (hcount ▸ h.le _)⟩
  sheltered := h'.sheltered
  outcomes {Z} hZ hnone hgone := by
    -- what has gone with the second tree is still named by the first one
    have hfirst : SameOutcomes M (Z.filter fun d => tally cells d b = 0) (runsOf a) (runsOf b) := by
      refine h.outcomes (fun d hd => hZ (List.mem_of_mem_filter hd)) (fun d hd => ?_) fun d hb hne => ?_
      · simpa using (List.mem_filter.1 hd).2
      · have hc : tally cells d c = 0 := Nat.le_zero.1 (hb ▸ h'.le d)
        exact List.mem_filter.2 ⟨hgone d hc hne, by simpa using hb⟩
    refine hfirst.trans (List.filter_subset_self Z) (h'.outcomes hZ hnone fun d hc hne => hgone d hc fun h0 => hne ?_)
    exact Nat.le_zero.1 (h0 ▸ h.le d)

section Congruence

variable (hM : M.Blind hidden)
include hM

theorem self_of_tally {Z : List Cell} (hZ : Z ⊆ hidden) {b : Body} (h : ∀ c ∈ Z, tally cells c b = 0) :
    SameOutcomes M Z (runsOf b) (runsOf b) :=
  hM.self hZ fun c hc hz => List.count_eq_zero.1 (h c hz) hc

theorem Chosen.refl {b : Body} (hb : Admitted hidden fixed loose uses b) : Chosen hidden fixed loose uses M b b where
  le _ := Nat.le_refl _
  gone h0 hne := absurd h0 hne
  sheltered := hb.sheltered
  outcomes hZ hnone _ := self_of_tally hM hZ hnone

theorem Chosen.around {b b' : Body} (x y : Body) (hb : Admitted hidden fixed loose uses (x ++ b ++ y))
    (h : Admitted hidden fixed loose uses b → Chosen hidden fixed loose uses M b b') :
    Chosen hidden fixed loose uses M (x ++ b ++ y) (x ++ b' ++ y) := by
  have htally (c : Cell) (d : Body) : tally cells c (x ++ d ++ y) = tally cells c x + tally cells c d + tally cells c y := by
    rw [tally_append, tally_append]
  replace h := h (hb.part x y)
  refine ⟨fun c => ?_, fun {c} h0 hne => ?_, fun n hn => ?_, fun {Z} hZ hnone hgone => ?_⟩
  · have := h.le c
    rw [htally, htally]
    omega
  · rw [htally] at h0 hne
    obtain ⟨hc, v, rfl, hcount⟩ := h.gone (c := c) (by omega) (by omega)
    refine ⟨hc, v, rfl, ?_⟩
    rw [htally]
    omega
  · rw [nodesOf_append, nodesOf_append, List.mem_append, List.mem_append] at hn
    have hkept {d : Body} (hd : d ⊆ x ++ b ++ y) (hn : n ∈ nodesOf d) := hb.sheltered n (nodesOf_mono hd hn)
    rcases hn with (hn | hn) | hn
    · exact hkept (fun _ hm => List.mem_append_left _ (List.mem_append_left _ hm)) hn
    · exact h.sheltered n hn
    · exact hkept (fun _ hm => List.mem_append_right _ hm) hn
  · have hzero (c : Cell) (hc : c ∈ Z) : tally cells c x = 0 ∧ tally cells c b' = 0 ∧ tally cells c y = 0 := by
      have := hnone c hc
      rw [htally] at this
      omega
    have hinner : SameOutcomes M Z (runsOf b) (runsOf b') := by
      refine h.outcomes hZ (fun c hc => (hzero c hc).2.1) fun c h0 hne => ?_
      -- all occurrences of what has gone were in the part
      obtain ⟨-, v, rfl, hcount⟩ := h.gone h0 hne
      have := hb.counted v
      rw [htally] at this
      exact hgone _ (by rw [htally]; omega) (by rw [htally]; omega)
    rw [runsOf_append, runsOf_append, runsOf_append, runsOf_append]
    exact ((self_of_tally hM hZ fun c hc => (hzero c hc).1).seq hinner).seq
      (self_of_tally hM hZ fun c hc => (hzero c hc).2.2)

theorem Chosen.inside {n : Node} {w : Nat} {b b' : Body} (hn : n.bodies[w]? = some b)
    (hb : Admitted hidden fixed loose uses [n]) (h : Admitted hidden fixed loose uses b → Chosen hidden fixed loose uses M b b') :
    Chosen hidden fixed loose uses M [n] [n.replace w b'] := by
  have htally (c : Cell) : tally cells c [n.replace w b'] + tally cells c b = tally cells c [n] + tally cells c b' :=
    tally_replace cells c hn cells_withBodies
  have hpart := tally_body_le hn
  replace h := h (hb.body hn)
  refine ⟨fun c => ?_, fun {c} h0 hne => ?_, ?_, fun {Z} hZ hnone hgone => ?_⟩
  · have := h.le c
    have := htally c
    omega
  · have := htally c
    have := hpart c
    obtain ⟨hc, v, rfl, hcount⟩ := h.gone (c := c) (by omega) (by omega)
    have := hb.counted v
    exact ⟨hc, v, rfl, by omega⟩
  · obtain ⟨hown, hbodies⟩ := forall_nodesOf_single.1 hb.sheltered
    refine forall_nodesOf_withBodies.2 ⟨sheltered_withBodies hown, fun j d hd => ?_⟩
    split
    · exact h.sheltered
    · exact hbodies d (List.mem_of_getElem? hd)
  · have hzero (c : Cell) (hc : c ∈ Z) := forall_nodesOf_withBodies.1 (tally_eq_zero.1 (hnone c hc))
    have hinner : SameOutcomes M Z (runsOf b) (runsOf b') := by
      have hnone' (c : Cell) (hc : c ∈ Z) : tally cells c b' = 0 := by
        have := (hzero c hc).2 w b hn
        rw [if_pos rfl] at this
        exact tally_eq_zero.2 this
      -- A variable gone from the body is gone from the node: it has no occurrence outside the body.
      refine h.outcomes hZ hnone' fun c h0 hne => ?_
      obtain ⟨-, v, rfl, hcount⟩ := h.gone h0 hne
      have := hb.counted v
      have := htally ⟨.var, v⟩
      have := hpart ⟨.var, v⟩
      exact hgone _ (by omega) (by omega)
    have hown : ∀ c ∈ n.cells, c ∉ Z := fun c hc hz => (hzero c hz).1 (by rw [cells_withBodies]; exact hc)
    rw [runsOf_singleton, runsOf_singleton]
    refine hM.withBodies hZ hown fun {j d} hd => ?_
    split
    · next hj =>
      subst hj
      rw [hn] at hd
      cases hd
      exact hinner
    · next hj =>
      refine self_of_tally hM hZ fun c hc => tally_eq_zero.2 ?_
      have := (hzero c hc).2 j d hd
      rwa [if_neg hj] at this

theorem congruence_chosen :
    Congruence fun b b' => Admitted hidden fixed loose uses b → Chosen hidden fixed loose uses M b b' where
  refl _ := .refl hM
  trans h h' ha := .trans ha (h ha) (h' ((h ha).counted ha))
  around x y h hb := .around hM x y hb h
  inside hn h hb := .inside hM hn hb h

section Choice

variable {v : LocalId} {negated : Bool} {op : BinaryOp} {c a b : Expr} {d : Bool} {l l' : Nat}
  (hc : testedVar? c = some (v, negated)) (hop : op = if negated then .or else .and) (ha : ⟨.var, v⟩ ∉ a.cells) (hb : ⟨.var, v⟩ ∉ b.cells)
include hc

omit hM in
theorem lasting_choice {rest : Body} (op : BinaryOp) (hsheltered : ∀ n ∈ nodesOf (stmt (.assign ⟨[.var v], [a], d, l⟩) ::
      ifThen c [stmt (.assign ⟨[.var v], [b], false, l'⟩)] :: rest), Sheltered hidden fixed loose uses n) :
    (⟨.var, v⟩ ∈ hidden ∧ (uses.count v = 4 → fixed v ∨ loose v)) ∧
      (fixed v → Lasting hidden loose (.binary op a b)) := by
  have hfirst := hsheltered (stmt (.assign ⟨[.var v], [a], d, l⟩)) (by simp)
  have hsecond := hsheltered (ifThen c [stmt (.assign ⟨[.var v], [b], false, l'⟩)]) (by simp)
  have hinner := hsheltered (stmt (.assign ⟨[.var v], [b], false, l'⟩)) (by simp)
  refine ⟨hsecond.tested v (by rw [tested?, hc]; rfl), fun hv => ?_⟩
  have hleft := hfirst.value (assignedValue?_stmt v a d l) hv
  have hright := hinner.value (assignedValue?_stmt v b false l') hv
  refine ⟨?_, fun u hu => ?_⟩
  · rw [Expr.steady, hleft.steady, hright.steady, Bool.and_true]
  · rw [Expr.cells_binary, List.mem_append] at hu
    exact hu.elim (hleft.strict u) (hright.strict u)

include hop ha hb

theorem chosen_choice (hadmitted : Admitted hidden fixed loose uses [stmt (.assign ⟨[.var v], [a], d, l⟩),
      ifThen c [stmt (.assign ⟨[.var v], [b], false, l'⟩)]]) :
    Chosen hidden fixed loose uses M [stmt (.assign ⟨[.var v], [a], d, l⟩), ifThen c [stmt (.assign ⟨[.var v], [b], false, l'⟩)]]
      [stmt (.assign ⟨[.var v], [.binary op a b], d, l⟩)] := by
  obtain ⟨⟨hv, -⟩, hlasting⟩ := lasting_choice hc op hadmitted.sheltered
  have hchoice := Choice.mk op d l l' (testedVar?_eq_some hc) ha hb
  have hafter (x : Cell) : tally cells x [stmt (.assign ⟨[.var v], [.binary op a b], d, l⟩)] =
      (Expr.binary op a b).cells.count x + [(⟨.var, v⟩ : Cell)].count x := by
    rw [tally_stmt, cells_single, List.count_append]
  refine ⟨fun x => ?_, fun {x} h0 hne => ?_, ?_, fun {Z} hZ hnone _ => ?_⟩
  · rw [hchoice.tally_cells, hafter]
    omega
  · rw [hafter] at h0
    rw [hchoice.tally_cells] at hne
    omega
  · simpa using sheltered_assign hlasting
  · refine .of_leads (self_of_tally hM hZ hnone) (fun e x e₁ h => ⟨e₁, ?_, rfl⟩) fun e x e₂ h => ⟨e₂, ?_, rfl⟩
    · exact leads_stmt.2 ((hM.leads_chosen hv hc hop hb).1 h)
    · exact (hM.leads_chosen hv hc hop hb).2 (leads_stmt.1 h)

omit ha in
theorem leads_chosen_then {s : Stmt} (hv : ⟨.var, v⟩ ∈ hidden) {e e₁ : Env V W} {x : Ending} :
    Leads M (runsOf [stmt (.assign ⟨[.var v], [a], d, l⟩), ifThen c [stmt (.assign ⟨[.var v], [b], false, l'⟩)],
        stmt s]) e x e₁ ↔
      x = (if s.isReturn then .stopped else .through) ∧
        M.run s (M.run (.assign ⟨[.var v], [.binary op a b], d, l⟩) e) = e₁ := by
  rw [show [stmt (.assign ⟨[.var v], [a], d, l⟩), ifThen c [stmt (.assign ⟨[.var v], [b], false, l'⟩)], stmt s] =
    [stmt (.assign ⟨[.var v], [a], d, l⟩), ifThen c [stmt (.assign ⟨[.var v], [b], false, l'⟩)]] ++ [stmt s]
    from rfl, runsOf_append, leads_seq]
  simp only [hM.leads_chosen hv hc hop hb, leads_stmt]
  constructor
  · rintro (⟨⟨rfl, -⟩, hne⟩ | ⟨e₂, ⟨-, rfl⟩, h⟩)
    · exact absurd rfl hne
    · exact h
  · exact fun h => .inr ⟨_, ⟨trivial, rfl⟩, h⟩

theorem chosen_take {s s' : Stmt} (hcall : (Expr.binary op a b).hasCall = false)
    (hfour : uses.count v = 4) (hone : s.readVars.count v = 1)
    (hs : s.substitute ⟨.var, v⟩ (some (.binary op a b)) = (s', none))
    (htakes : Takes loose s) (hadmitted : Admitted hidden fixed loose uses [stmt (.assign ⟨[.var v], [a], d, l⟩),
      ifThen c [stmt (.assign ⟨[.var v], [b], false, l'⟩)], stmt s]) :
    Chosen hidden fixed loose uses M [stmt (.assign ⟨[.var v], [a], d, l⟩),
      ifThen c [stmt (.assign ⟨[.var v], [b], false, l'⟩)], stmt s] [stmt s'] := by
  obtain ⟨⟨hv, hkind⟩, hlasting⟩ := lasting_choice hc op hadmitted.sheltered
  replace hkind := hkind hfour
  have hchoice := Choice.mk op d l l' (testedVar?_eq_some hc) ha hb
  have hread : v ∈ s.readVars := List.count_pos_iff.1 (by omega)
  have htally := hchoice.tally_take hs
  refine ⟨fun x => ?_, fun {x} h0 hne => ?_, ?_, fun {Z} hZ hnone hgone => ?_⟩
  · have := htally x
    omega
  · have hx : x = ⟨.var, v⟩ := by
      by_contra h
      have := htally x
      rw [List.count_singleton, if_neg (by simpa using Ne.symm h)] at this
      omega
    subst hx
    have := htally ⟨.var, v⟩
    rw [List.count_singleton_self] at this
    exact ⟨hv, v, rfl, by omega⟩
  · have hsheltered : Sheltered hidden fixed loose uses (stmt s') := by
      refine ⟨fun _ h => (by cases h), fun {u x} hx hu => ?_⟩
      obtain ⟨y, k, m, rfl, hy⟩ := assignedValue?_substitute hs hx
      have hold := (hadmitted.sheltered (stmt (.assign ⟨[.var u], [y], k, m⟩)) (by simp)).value
        (assignedValue?_stmt u y k m) hu
      refine hold.substitute (hlasting (hkind.resolve_right (hold.strict v ?_))) hy
      simpa [Stmt.mem_readVars, Stmt.operands, Expr.targetOperands] using hread
    simpa using hsheltered
  · have hreturn : s'.isReturn = s.isReturn := by
      rw [← Stmt.isReturn_substitute _ s, hs]
    -- The variable has lost its last occurrences, so it is one of the cells that are left out.
    have hvZ : [⟨.var, v⟩] ⊆ Z := by
      have := htally ⟨.var, v⟩
      have := hadmitted.counted v
      rw [List.count_singleton_self] at *
      exact List.cons_subset.2 ⟨hgone _ (by omega) (by omega), List.nil_subset _⟩
    have hsafe : (Expr.binary op a b).steady hidden = true ∨
        ∀ n ∈ Expr.nodesList s.operands, n.isCall = false :=
      hkind.imp (fun hfixed => (hlasting hfixed).steady) (htakes v hread)
    have hrun (e : Env V W) : (M.run s (M.run (.assign ⟨[.var v], [.binary op a b], d, l⟩) e)).apart Z =
        (M.run s' e).apart Z := by
      obtain ⟨w, hw, hset⟩ := hM.run_setChosen hv d l e hcall
      rw [hset]
      exact Env.apart_mono hvZ (hM.run_substitute hv hcall hs (by rw [← Stmt.count_readVars, hone]) hsafe hw)
    refine .of_leads (self_of_tally hM hZ hnone) (fun e x e₁ h => ?_) fun e x e₂ h => ?_
    · obtain ⟨rfl, rfl⟩ := (leads_chosen_then hM hc hop hb hv).1 h
      exact ⟨_, leads_stmt.2 ⟨by rw [hreturn], rfl⟩, hrun e⟩
    · obtain ⟨rfl, rfl⟩ := leads_stmt.1 h
      exact ⟨_, (leads_chosen_then hM hc hop hb hv).2 ⟨by rw [hreturn], rfl⟩, hrun e⟩

end Choice

def lost (hidden : List Cell) (b b' : Body) : List Cell :=
  hidden.filter fun c => tally cells c b ≠ 0 ∧ tally cells c b' = 0

/-- Values chosen and taken all over a tree leave what it leads to, but for variables that have gone. -/
theorem sameOutcomes_choose {b : Body} (hsheltered : ∀ n ∈ nodesOf b, Sheltered hidden fixed loose (occurrences b) n)
    (htakes : ∀ s, stmt s ∈ nodesOf b → Takes loose s) :
    SameOutcomes M (lost hidden b (everywhere (chooseIn (occurrences b)) b).1) (runsOf b)
      (runsOf (everywhere (chooseIn (occurrences b)) b).1) := by
  have hcongr : Congruence fun x y => Admitted hidden fixed loose (occurrences b) x →
      Chosen hidden fixed loose (occurrences b) M x y := congruence_chosen hM
  have hchosen : Chosen hidden fixed loose (occurrences b) M b (everywhere (chooseIn (occurrences b)) b).1 := by
    refine hcongr.everywhere_of (P := Takes loose) (fun body hbody => ?_) htakes
      ⟨fun v => Nat.le_of_eq (count_occurrences b).symm, hsheltered⟩
    refine hcongr.chooseIn_of (fun h => ?_) (fun htake h hn => ?_) hbody
    · obtain ⟨v, negated, c, a, b, d, l, l', rfl, rfl, hc, rfl, ha, hb⟩ := chosenValue?_eq_some h
      exact chosen_choice hM hc rfl ha hb
    · obtain ⟨v, negated, c, a, b, d, l, l', rfl, rfl, hc, rfl, ha, hb⟩ := chosenValue?_eq_some h
      obtain ⟨hcall, hfour, hone, s', hs, rfl⟩ := takeValue?_eq_some hn
      exact chosen_take hM hc rfl ha hb hcall hfour hone hs htake
  refine hchosen.outcomes (List.filter_subset_self hidden) (fun c hc => ?_) fun c h0 hne => ?_
  · have := (List.mem_filter.1 hc).2
    simp only [decide_eq_true_eq] at this
    exact this.2
  · exact List.mem_filter.2 ⟨(hchosen.gone h0 hne).1, decide_eq_true ⟨hne, h0⟩⟩

end Congruence

def defaulting : Body :=
  [stmt (.assign ⟨[.var 0], [.global "a"], true, 0⟩),
    ifThen (.unary .not (.var 0)) [stmt (.assign ⟨[.var 0], [.global "b"], false, 0⟩)],
    stmt (.call (.global "f") [.var 0] 0)]

theorem sameOutcomes_choose_defaulting : SameOutcomes Effects.logging [⟨.var, 0⟩] (runsOf defaulting)
    (runsOf [stmt (.call (.global "f") [.binary .or (.global "a") (.global "b")] 0)]) := by
  have htested : ∀ n ∈ nodesOf defaulting, ∀ v ∈ n.tested?, v = 0 := by
    simp [defaulting, tested?, testedVar?]
  have hcalls : ∀ s, stmt s ∈ nodesOf defaulting → ∀ n ∈ Expr.nodesList s.operands, n.isCall = false := by
    simp [defaulting, Stmt.operands, Expr.targetOperands, Expr.nodesList, Expr.nodes, Expr.isCall]
  have hsheltered : ∀ n ∈ nodesOf defaulting,
      Sheltered [⟨.var, 0⟩] (fun _ => False) (fun v => v = 0) (occurrences defaulting) n := by
    intro n hn
    refine ⟨fun v hv => ?_, fun _ h => h.elim⟩
    obtain rfl := htested n hn v hv
    exact ⟨.head _, fun _ => .inr rfl⟩
  exact sameOutcomes_choose (Effects.blind_logging _) hsheltered fun s hs _ _ _ => hcalls s hs

end

end Node

end LuaLift
