import LuaLift.Proofs.Data.Total
import LuaLift.Proofs.Denotation
import LuaLift.Proofs.Slots.Inlining
import Mathlib.Data.List.Permutation
import Mathlib.Order.WellFounded

namespace LuaLift

variable {V : Type}

def Expr.Opens (s : Slot) (multi : Bool) : Expr → Prop
  | closure _ cs => ⟨.slot, s⟩ ∉ cs.flatMap cells
  | call _ as => multi = true → endsWith s as = false
  | table as _ => multi = true → endsWith s as = false
  | _ => True

theorem count_append_eq_one {c : Cell} {k l : List Cell} (h : (k ++ l).count c = 1) :
    (k.count c = 1 ∧ c ∉ l) ∨ (c ∉ k ∧ l.count c = 1) := by
  rw [List.count_append] at h
  rcases Nat.eq_zero_or_pos (k.count c) with hk | hk
  · right
    exact ⟨List.count_eq_zero.1 hk, by omega⟩
  · left
    exact ⟨by omega, List.count_eq_zero.1 (by omega)⟩

theorem endsWith_cons {s : Slot} (e : Expr) {es : List Expr} (h : es ≠ []) :
    endsWith s (e :: es) = endsWith s es := by
  rw [endsWith, endsWith, List.getLast?_cons, List.getLast?_eq_some_getLast h]
  rfl

namespace Denotation

variable (D : Denotation V) (σ : Store V) {s : Slot} {x : Expr}

theorem values_set {c : Cell} {e : Expr} (h : c ∉ e.cells) (v : V) : D.values (σ.set c v) e = D.values σ e := by
  apply D.values_congr
  intro d hd
  exact σ.set_of_ne v (ne_of_mem_of_not_mem hd h)

theorem value_set {c : Cell} {e : Expr} (h : c ∉ e.cells) (v : V) : D.value (σ.set c v) e = D.value σ e :=
  congrArg D.first (D.values_set σ h v)

theorem valuesEach_set {c : Cell} {es : List Expr} (h : c ∉ es.flatMap Expr.cells) (v : V) :
    D.valuesEach (σ.set c v) es = D.valuesEach σ es := by
  apply D.valuesEach_congr
  intro d hd
  exact σ.set_of_ne v (ne_of_mem_of_not_mem hd h)

theorem valuesRecords_set {c : Cell} {rs : List (Expr × Expr)}
    (h : c ∉ rs.flatMap fun r => r.1.cells ++ r.2.cells) (v : V) :
    D.valuesRecords (σ.set c v) rs = D.valuesRecords σ rs := by
  apply D.valuesRecords_congr
  intro d hd
  exact σ.set_of_ne v (ne_of_mem_of_not_mem hd h)

theorem spread_cons (l : List V) {ls : List (List V)} (h : ls ≠ []) :
    D.spread (l :: ls) = D.first l :: D.spread ls := by
  cases ls with
  | nil => exact absurd rfl h
  | cons m ls => rfl

def Replaces (s : Slot) (x e e' : Expr) : Prop :=
  D.value σ e' = D.value (σ.set ⟨.slot, s⟩ (D.value σ x)) e ∧
    ((x.isMultiValue = true → e.slot? ≠ some s) →
      D.values σ e' = D.values (σ.set ⟨.slot, s⟩ (D.value σ x)) e)

variable {D σ}

theorem Replaces.of_values {e e' : Expr} (h : D.values σ e' = D.values (σ.set ⟨.slot, s⟩ (D.value σ x)) e) :
    D.Replaces σ s x e e' :=
  ⟨congrArg D.first h, fun _ => h⟩

theorem replaces_slot (s : Slot) (x : Expr) : D.Replaces σ s x (.slot s) x := by
  constructor
  · simp [value, values, first]
  · intro hx
    have hsingle : x.isMultiValue = false := by
      by_contra hmulti
      exact hx (by simpa using hmulti) rfl
    rw [D.values_of_single hsingle]
    simp [values]

variable (D σ)

mutual

theorem exists_replaces : (e : Expr) → (∀ n ∈ e.nodes, n.Opens s x.isMultiValue) → e.cells.count ⟨.slot, s⟩ = 1 →
    ∃ e', e.substitute ⟨.slot, s⟩ (some x) = (e', none) ∧ D.Replaces σ s x e e'
  | .slot t, _, h => by
    have hst : s = t := by
      by_contra hne
      rw [Expr.cells_cell (e := .slot t) rfl, List.count_singleton] at h
      simp [Ne.symm hne] at h
    subst hst
    exact ⟨x, by simp [Expr.substitute], replaces_slot s x⟩
  | .var _, _, h | .upvalue _, _, h | .global _, _, h | .constant _, _, h | .vararg, _, h => by
    simp [Expr.cells, Expr.nodes, Expr.cell?, List.filterMap_cons] at h
  | .index t k, hopen, h => by
    rw [Expr.nodes, List.forall_mem_cons, List.forall_mem_append] at hopen
    rw [Expr.cells_index] at h
    -- The one read is in one part, and the other part does not name the slot.
    rcases count_append_eq_one h with ⟨ht, hk⟩ | ⟨ht, hk⟩
    · obtain ⟨t', ht', hv⟩ := exists_replaces t hopen.2.1 ht
      refine ⟨.index t' k, ?_, .of_values ?_⟩
      · simp only [Expr.substitute, ht', Expr.substitute_idle k fun _ => rfl]
      · exact congrArg₂ (fun a b => [D.index a b]) hv.1 (D.value_set σ hk _).symm
    · obtain ⟨k', hk', hv⟩ := exists_replaces k hopen.2.2 hk
      refine ⟨.index t k', ?_, .of_values ?_⟩
      · simp only [Expr.substitute, Expr.substitute_idle t (absurd · ht), hk']
      · exact congrArg₂ (fun a b => [D.index a b]) (D.value_set σ ht _).symm hv.1
  | .unary op e, hopen, h => by
    rw [Expr.nodes, List.forall_mem_cons] at hopen
    rw [Expr.cells_unary] at h
    obtain ⟨e', he', hv⟩ := exists_replaces e hopen.2 h
    refine ⟨.unary op e', ?_, .of_values ?_⟩
    · simp only [Expr.substitute, he']
    · exact congrArg (fun a => [D.unary op a]) hv.1
  | .binary op a b, hopen, h => by
    rw [Expr.nodes, List.forall_mem_cons, List.forall_mem_append] at hopen
    rw [Expr.cells_binary] at h
    rcases count_append_eq_one h with ⟨ha, hb⟩ | ⟨ha, hb⟩
    · obtain ⟨a', ha', hv⟩ := exists_replaces a hopen.2.1 ha
      refine ⟨.binary op a' b, ?_, .of_values ?_⟩
      · simp only [Expr.substitute, ha', Expr.substitute_idle b fun _ => rfl]
      · exact congrArg₂ (fun y z => [D.binary op y z]) hv.1 (D.value_set σ hb _).symm
    · obtain ⟨b', hb', hv⟩ := exists_replaces b hopen.2.2 hb
      refine ⟨.binary op a b', ?_, .of_values ?_⟩
      · simp only [Expr.substitute, Expr.substitute_idle a (absurd · ha), hb']
      · exact congrArg₂ (fun y z => [D.binary op y z]) (D.value_set σ ha _).symm hv.1
  | .call f as, hopen, h => by
    rw [Expr.nodes, List.forall_mem_cons, List.forall_mem_append] at hopen
    rw [Expr.cells_call] at h
    rcases count_append_eq_one h with ⟨hf, has⟩ | ⟨hf, has⟩
    · obtain ⟨f', hf', hv⟩ := exists_replaces f hopen.2.1 hf
      refine ⟨.call f' as, ?_, .of_values ?_⟩
      · simp only [Expr.substitute, hf', Expr.substituteList_idle as fun _ => rfl]
      · exact congrArg₂ D.call hv.1 (congrArg D.spread (D.valuesEach_set σ has _).symm)
    · obtain ⟨as', has', -, hspread⟩ := exists_replacesEach as hopen.2.2 has
      refine ⟨.call f as', ?_, .of_values ?_⟩
      · simp only [Expr.substitute, Expr.substitute_idle f (absurd · hf), has']
      · exact congrArg₂ D.call (D.value_set σ hf _).symm (hspread hopen.1)
  | .closure p cs, hopen, h => by
    rw [Expr.nodes, List.forall_mem_cons] at hopen
    rw [Expr.cells_closure] at h
    exact absurd (List.count_pos_iff.1 (h ▸ Nat.one_pos)) hopen.1
  | .table as rs, hopen, h => by
    rw [Expr.nodes, List.forall_mem_cons, List.forall_mem_append] at hopen
    rw [Expr.cells_table] at h
    rcases count_append_eq_one h with ⟨has, hrs⟩ | ⟨has, hrs⟩
    · obtain ⟨as', has', -, hspread⟩ := exists_replacesEach as hopen.2.1 has
      refine ⟨.table as' rs, ?_, .of_values ?_⟩
      · simp only [Expr.substitute, has', Expr.substituteRecords_idle rs fun _ => rfl]
      · exact congrArg₂ (fun y z => [D.table y z]) (hspread hopen.1) (D.valuesRecords_set σ hrs _).symm
    · obtain ⟨rs', hrs', hv⟩ := exists_replacesRecords rs hopen.2.2 hrs
      refine ⟨.table as rs', ?_, .of_values ?_⟩
      · simp only [Expr.substitute, Expr.substituteList_idle as (absurd · has), hrs']
      · exact congrArg₂ (fun y z => [D.table y z]) (congrArg D.spread (D.valuesEach_set σ has _).symm) hv

theorem exists_replacesEach : (es : List Expr) → (∀ n ∈ Expr.nodesList es, n.Opens s x.isMultiValue) →
    (es.flatMap Expr.cells).count ⟨.slot, s⟩ = 1 →
    ∃ es', Expr.substituteList ⟨.slot, s⟩ es (some x) = (es', none) ∧
      (D.valuesEach σ es').map D.first =
        (D.valuesEach (σ.set ⟨.slot, s⟩ (D.value σ x)) es).map D.first ∧
      ((x.isMultiValue = true → endsWith s es = false) →
        D.spread (D.valuesEach σ es') = D.spread (D.valuesEach (σ.set ⟨.slot, s⟩ (D.value σ x)) es))
  | [], _, h => by simp at h
  | e :: es, hopen, h => by
    rw [Expr.nodesList, List.forall_mem_append] at hopen
    rw [List.flatMap_cons] at h
    rcases count_append_eq_one h with ⟨he, hes⟩ | ⟨he, hes⟩
    · obtain ⟨e', he', hv, hvs⟩ := exists_replaces e hopen.1 he
      refine ⟨e' :: es, ?_, ?_, ?_⟩
      · simp only [Expr.substituteList, he', Expr.substituteList_idle es fun _ => rfl]
      · exact congrArg₂ List.cons hv (congrArg (List.map D.first) (D.valuesEach_set σ hes _).symm)
      · intro hx
        rw [valuesEach, valuesEach, D.valuesEach_set σ hes]
        rcases eq_or_ne es [] with rfl | hne
        · exact hvs fun hmulti => by simpa [endsWith] using hx hmulti
        · have hne' : D.valuesEach σ es ≠ [] := by
            apply List.ne_nil_of_length_pos
            simpa using List.length_pos_of_ne_nil hne
          rw [D.spread_cons _ hne', D.spread_cons _ hne']
          exact congrArg (· :: _) hv
    · obtain ⟨es', hes', hv, hspread⟩ := exists_replacesEach es hopen.2 hes
      refine ⟨e :: es', ?_, ?_, ?_⟩
      · simp only [Expr.substituteList, Expr.substitute_idle e (absurd · he), hes']
      · exact congrArg₂ List.cons (D.value_set σ he _).symm hv
      · intro hx
        have hne : es ≠ [] := by
          rintro rfl
          simp at hes
        have hlength : es'.length = es.length := by
          simpa [hes'] using Expr.length_substituteList ⟨.slot, s⟩ es (some x)
        rw [valuesEach, valuesEach, D.values_set σ he, D.spread_cons, D.spread_cons]
        · exact congrArg (_ :: ·) (hspread fun hmulti => endsWith_cons e hne ▸ hx hmulti)
        · exact List.ne_nil_of_length_pos (by simpa using List.length_pos_of_ne_nil hne)
        · exact List.ne_nil_of_length_pos (by simpa [hlength] using List.length_pos_of_ne_nil hne)

theorem exists_replacesRecords : (rs : List (Expr × Expr)) → (∀ n ∈ Expr.nodesRecords rs, n.Opens s x.isMultiValue) →
    (rs.flatMap fun r => r.1.cells ++ r.2.cells).count ⟨.slot, s⟩ = 1 →
    ∃ rs', Expr.substituteRecords ⟨.slot, s⟩ rs (some x) = (rs', none) ∧
      D.valuesRecords σ rs' = D.valuesRecords (σ.set ⟨.slot, s⟩ (D.value σ x)) rs
  | [], _, h => by simp at h
  | (k, v) :: rs, hopen, h => by
    rw [Expr.nodesRecords, List.forall_mem_append, List.forall_mem_append] at hopen
    rw [List.flatMap_cons] at h
    rcases count_append_eq_one h with ⟨hkv, hrs⟩ | ⟨hkv, hrs⟩
    · rcases count_append_eq_one hkv with ⟨hk, hv⟩ | ⟨hk, hv⟩
      · obtain ⟨k', hk', hsame⟩ := exists_replaces k hopen.1.1 hk
        refine ⟨(k', v) :: rs, ?_, ?_⟩
        · simp only [Expr.substituteRecords, hk', Expr.substitute_idle v fun _ => rfl,
            Expr.substituteRecords_idle rs fun _ => rfl]
        · exact congrArg₂ List.cons (Prod.ext hsame.1 (D.value_set σ hv _).symm) (D.valuesRecords_set σ hrs _).symm
      · obtain ⟨v', hv', hsame⟩ := exists_replaces v hopen.1.2 hv
        refine ⟨(k, v') :: rs, ?_, ?_⟩
        · simp only [Expr.substituteRecords, Expr.substitute_idle k (absurd · hk), hv',
            Expr.substituteRecords_idle rs fun _ => rfl]
        · exact congrArg₂ List.cons (Prod.ext (D.value_set σ hk _).symm hsame.1) (D.valuesRecords_set σ hrs _).symm
    · obtain ⟨rs', hrs', hsame⟩ := exists_replacesRecords rs hopen.2 hrs
      rw [List.mem_append, not_or] at hkv
      refine ⟨(k, v) :: rs', ?_, ?_⟩
      · simp only [Expr.substituteRecords, Expr.substitute_idle k (absurd · hkv.1),
          Expr.substitute_idle v (absurd · hkv.2), hrs']
      · exact congrArg₂ List.cons (Prod.ext (D.value_set σ hkv.1 _).symm (D.value_set σ hkv.2 _).symm) hsame

end

end Denotation

theorem opens_of_canInline {s : Slot} {x : Expr} {es : List Expr} {dead : Bool}
    (h : canInline s x es dead = true) (hes : Expr.plainCaptures es = true) :
    (es.flatMap Expr.cells).count ⟨.slot, s⟩ = 1 ∧ ∀ n ∈ Expr.nodesList es, n.Opens s x.isMultiValue := by
  simp only [canInline, Bool.and_eq_true, beq_iff_eq, Bool.not_eq_true', List.any_eq_false,
    List.contains_eq_mem, decide_eq_true_eq] at h
  obtain ⟨⟨⟨⟨hcount, hfree⟩, -⟩, -⟩, htail⟩ := h
  have htail (hx : x.isMultiValue = true) : readsAtListTail s es = false := by
    rwa [hx, Bool.true_and] at htail
  refine ⟨(Expr.total_count _ es).symm.trans hcount, ?_⟩
  intro n hn
  cases n with
  | closure p cs =>
    intro hs
    apply Expr.slot_not_mem_captures hes hfree hn
    rw [← Expr.cells_nodesList] at hs
    obtain ⟨m, hm, hcell⟩ := List.mem_filterMap.1 hs
    rwa [Expr.ofCell_of_cell? hcell] at hm
  | call f as =>
    intro hx
    have := htail hx
    rw [readsAtListTail, List.any_eq_false] at this
    simpa using this _ hn
  | table as rs =>
    intro hx
    have := htail hx
    rw [readsAtListTail, List.any_eq_false] at this
    simpa using this _ hn
  | _ => trivial

namespace Stmt

variable (D : Denotation V) (σ : Store V) {s : Slot} {x : Expr} {t : Stmt}

theorem substituteTargets_idle {c : Cell} {o : Option Expr} {es : List Expr}
    (h : c ∉ (es.flatMap Expr.targetOperands).flatMap Expr.cells) : substituteTargets c es o = (es, o) := by
  induction es with
  | nil => rfl
  | cons e es ih =>
    rw [List.flatMap_cons, List.flatMap_append, List.mem_append, not_or] at h
    rw [substituteTargets]
    cases e <;> simp_all [substituteTarget, Expr.targetOperands, Expr.substitute_idle]

theorem targetOperands_substituteTargets (c : Cell) (es : List Expr) (o : Option Expr) :
    ((substituteTargets c es o).1.flatMap Expr.targetOperands, (substituteTargets c es o).2) =
      Expr.substituteList c (es.flatMap Expr.targetOperands) o := by
  induction es generalizing o with
  | nil => rfl
  | cons e es ih =>
    rw [substituteTargets]
    cases e <;> simp [substituteTarget, Expr.targetOperands, Expr.substituteList, ← ih]

theorem targetFrame_substituteTargets (c : Cell) (es : List Expr) (o : Option Expr) :
    (substituteTargets c es o).1.map Expr.targetFrame = es.map Expr.targetFrame := by
  induction es generalizing o with
  | nil => rfl
  | cons e es ih =>
    rw [substituteTargets]
    cases e <;> simp [substituteTarget, Expr.targetFrame, ih]

theorem frame_take (s : Slot) (x : Expr) (t : Stmt) : (t.take s x).frame = t.frame := by
  cases t <;>
    simp [take, substitute, frame, targetFrame_substituteTargets, List.map_const', Expr.length_substituteList]

theorem length_substituteTargets (c : Cell) (es : List Expr) (o : Option Expr) :
    (substituteTargets c es o).1.length = es.length := by
  simpa using congrArg List.length (targetFrame_substituteTargets c es o)

theorem operandValues_take {dead : Slot → Bool} (h : t.accepts dead s x = true)
    (ht : Expr.plainCaptures t.operands = true) :
    operandValues D σ (t.take s x) = operandValues D (σ.set ⟨.slot, s⟩ (D.value σ x)) t := by
  rw [accepts, Bool.and_eq_true, Bool.not_eq_true'] at h
  obtain ⟨hcount, hopen⟩ := opens_of_canInline h.1 ht
  have hall {b : Bool} (hb : (x.isMultiValue && b) = false) (hx : x.isMultiValue = true) : b = false := by
    rwa [hx, Bool.true_and] at hb
  cases t with
  | assign a =>
    rw [operands, Expr.nodesList_append, List.forall_mem_append] at hopen
    rw [operands, List.flatMap_append] at hcount
    -- The read is in the targets or in the values. Several values count only where the list of values ends.
    rcases count_append_eq_one hcount with ⟨htargets, hvalues⟩ | ⟨htargets, hvalues⟩
    · obtain ⟨es, hes, hfirst, -⟩ := D.exists_replacesEach σ _ hopen.1 htargets
      rw [← targetOperands_substituteTargets, Prod.mk.injEq] at hes
      simp only [take, substitute, operandValues, given, hes, Expr.substituteList_idle a.values fun _ => rfl,
        length_substituteTargets, hfirst, D.valuesEach_set σ hvalues]
    · obtain ⟨es, hes, hfirst, hspread⟩ := D.exists_replacesEach σ _ hopen.2 hvalues
      have hlength : es.length = a.values.length := by
        simpa [hes] using Expr.length_substituteList ⟨.slot, s⟩ a.values (some x)
      simp only [take, substitute, operandValues, given, substituteTargets_idle htargets, hes, hlength,
        D.valuesEach_set σ htargets, hfirst]
      split
      · next hmore =>
        rw [hspread fun hx => by simpa [takesAll, hmore] using hall h.2 hx]
      · rfl
  | call f as l =>
    rw [operands, Expr.nodesList, List.forall_mem_append] at hopen
    rw [operands, List.flatMap_cons] at hcount
    rcases count_append_eq_one hcount with ⟨hf, has⟩ | ⟨hf, has⟩
    · obtain ⟨f', hf', hv⟩ := D.exists_replaces σ f hopen.1 hf
      simp only [take, substitute, operandValues, hf', Expr.substituteList_idle as fun _ => rfl, hv.1,
        D.valuesEach_set σ has]
    · obtain ⟨as', has', -, hspread⟩ := D.exists_replacesEach σ as hopen.2 has
      simp only [take, substitute, operandValues, Expr.substitute_idle f (absurd · hf), has', D.value_set σ hf]
      rw [hspread (hall h.2)]
  | ret vs l =>
    obtain ⟨vs', hvs', -, hspread⟩ := D.exists_replacesEach σ vs hopen hcount
    simp only [take, substitute, operandValues, hvs']
    rw [hspread (hall h.2)]
  | declare vs => cases hcount

end Stmt

namespace Jump

def testValue? (D : Denotation V) (σ : Store V) (j : Jump) : Option V := j.condition?.map (D.value σ)

def frame (j : Jump) : Jump := j.mapCondition fun _ => default

theorem frame_take (s : Slot) (x : Expr) (j : Jump) : (j.take s x).frame = j.frame := by
  cases j <;> rfl

theorem testValue?_take (D : Denotation V) (σ : Store V) {out : NatSet} {s : Slot} {x : Expr} {j : Jump}
    (h : j.accepts out s x = true) (hj : Expr.plainCaptures j.condition?.toList = true) :
    (j.take s x).testValue? D σ = j.testValue? D (σ.set ⟨.slot, s⟩ (D.value σ x)) := by
  obtain ⟨hcount, hopen⟩ := opens_of_canInline h hj
  cases j with
  | branch c a b =>
    simp only [condition?, Option.toList_some, List.flatMap_singleton, Expr.nodesList, List.append_nil] at hcount hopen
    obtain ⟨c', hc', hv⟩ := D.exists_replaces σ c hopen hcount
    simp only [take, mapCondition, testValue?, condition?, hc', Option.map_some, hv.1]
  | _ => cases hcount

theorem testValue?_congr (D : Denotation V) {σ τ : Store V} {j : Jump}
    (h : ∀ kind, ∀ i ∈ j.reads kind, σ ⟨kind, i⟩ = τ ⟨kind, i⟩) : j.testValue? D σ = j.testValue? D τ := by
  cases j with
  | branch c a b =>
    refine congrArg (fun l => some (D.first l)) (D.values_congr c ?_)
    rintro ⟨kind, i⟩ hc
    exact h kind i (Expr.mem_reads.2 hc)
  | _ => rfl

end Jump

def Alike (out : NatSet) (j : Jump) (rest : List Stmt) (σ τ : Store V) : Prop :=
  ∀ c, σ c ≠ τ c → c.kind = .slot ∧ deadAfter out j c.index rest = true

namespace Alike

variable {out : NatSet} {j : Jump} {rest : List Stmt} {σ τ : Store V} {D : Denotation V}

theorem deadAfter_cons {t : Stmt} {s : Slot} (h : deadAfter out j s (t :: rest) = true) :
    s ∉ t.readSlots ∧ (s ∉ t.writtenSlots → deadAfter out j s rest = true) := by
  rw [deadAfter] at h
  split at h
  · cases h
  · next hread =>
    refine ⟨by simpa using hread, fun hwritten => ?_⟩
    rwa [if_neg (by simpa using hwritten)] at h

theorem operandValues_eq {t : Stmt} (h : Alike out j (t :: rest) σ τ) :
    Stmt.operandValues D σ t = Stmt.operandValues D τ t := by
  apply Stmt.operandValues_congr
  rintro ⟨kind, i⟩ hc
  by_contra hne
  obtain ⟨hkind, hdead⟩ := h _ hne
  subst hkind
  apply (deadAfter_cons hdead).1
  obtain ⟨e, he, hc⟩ := List.mem_flatMap.1 hc
  exact List.mem_flatMap.2 ⟨e, he, Expr.mem_reads.2 hc⟩

theorem perform {t : Stmt} (h : Alike out j (t :: rest) σ τ) :
    Alike out j rest (Stmt.perform D σ t) (Stmt.perform D τ t) := by
  rintro ⟨kind, i⟩ hne
  obtain ⟨hne, hwritten⟩ := Stmt.ne_of_perform_ne rfl h.operandValues_eq hne
  obtain ⟨hkind, hdead⟩ := h _ hne
  subst hkind
  exact ⟨rfl, (deadAfter_cons hdead).2 hwritten⟩

theorem along (h : Alike out j rest σ τ) : Stmt.trace D σ rest = Stmt.trace D τ rest ∧
    Alike out j [] (Stmt.final D σ rest) (Stmt.final D τ rest) := by
  induction rest generalizing σ τ with
  | nil => exact ⟨rfl, h⟩
  | cons t rest ih =>
    obtain ⟨htrace, hfinal⟩ := ih (h.perform (D := D))
    exact ⟨congrArg₂ List.cons h.operandValues_eq htrace, hfinal⟩

theorem testValue?_eq (h : Alike out j [] σ τ) : j.testValue? D σ = j.testValue? D τ := by
  apply Jump.testValue?_congr
  intro kind i hi
  by_contra hne
  obtain ⟨hkind, hdead⟩ := h _ hne
  obtain rfl : kind = .slot := hkind
  simp [deadAfter, hi] at hdead

theorem slot_eq (h : Alike out j [] σ τ) {s : Slot} (hs : s ∈ out) : σ ⟨.slot, s⟩ = τ ⟨.slot, s⟩ := by
  by_contra hne
  simpa [deadAfter, hs] using (h _ hne).2

end Alike

/-- A block computes with fewer statements what it computed before. The statement at `i` was at `place i`;
`removable` holds of the statements that are gone. -/
structure Block.SameData (removable : Stmt → Prop) (out : NatSet) (place : Nat → Nat) (b c : Block) : Prop where
  apart : c = { b with body := c.body, jump := c.jump }
  order : StrictMono place
  kept : ∀ i, c.body[i]?.map Stmt.frame = b.body[place i]?.map Stmt.frame
  removed : ∀ k w, b.body[k]? = some w → (∀ i, place i ≠ k) → removable w
  operands : ∀ {V : Type} (D : Denotation V) (σ : Store V) (i : Nat),
    (Stmt.trace D σ c.body)[i]? = (Stmt.trace D σ b.body)[place i]?
  jump : c.jump.frame = b.jump.frame
  test : ∀ {V : Type} (D : Denotation V) (σ : Store V),
    c.jump.testValue? D (Stmt.final D σ c.body) = b.jump.testValue? D (Stmt.final D σ b.body)
  live : ∀ {V : Type} (D : Denotation V) (σ : Store V), ∀ s ∈ out,
    Stmt.final D σ c.body ⟨.slot, s⟩ = Stmt.final D σ b.body ⟨.slot, s⟩

def Stmt.IsTemporary (guarded : Slot → Bool) (w : Stmt) : Prop :=
  ∃ s e, w.singleSlot? = some (s, e) ∧ guarded s = false

namespace Stmt

variable {s : Slot} {e : Expr} {w w' : Stmt}

theorem exists_of_singleSlot? (h : w.singleSlot? = some (s, e)) :
    ∃ d l, w = assign ⟨[.slot s], [e], d, l⟩ := by
  unfold singleSlot? at h
  split at h <;> cases h
  exact ⟨_, _, rfl⟩

theorem IsTemporary.of_frame {guarded : Slot → Bool} (h : w'.IsTemporary guarded) (hframe : w'.frame = w.frame) :
    w.IsTemporary guarded := by
  obtain ⟨s, e, hw, hs⟩ := h
  obtain ⟨d, l, rfl⟩ := exists_of_singleSlot? hw
  cases w with
  | assign a =>
    obtain ⟨targets, values, d', l'⟩ := a
    simp only [frame, List.map_cons, List.map_nil, assign.injEq, Assignment.mk.injEq] at hframe
    obtain ⟨htargets, hvalues, -, -⟩ := hframe
    obtain ⟨y, rfl⟩ := List.length_eq_one_iff.1 (by simpa using (congrArg List.length hvalues).symm)
    obtain ⟨t, rfl⟩ := List.length_eq_one_iff.1 (by simpa using (congrArg List.length htargets).symm)
    cases t <;> simp [Expr.targetFrame] at htargets
    subst htargets
    exact ⟨s, y, rfl, hs⟩
  | _ => simp [frame] at hframe

theorem perform_of_singleSlot? (D : Denotation V) (σ : Store V) (h : w.singleSlot? = some (s, e)) :
    perform D σ w = σ.set ⟨.slot, s⟩ (D.value σ e) := by
  obtain ⟨d, l, rfl⟩ := exists_of_singleSlot? h
  rfl

end Stmt

namespace Block

variable {b c d : Block}

def skip (n i : Nat) : Nat := if i < n then i else i + 1

theorem strictMono_skip (n : Nat) : StrictMono (skip n) := by
  intro i j h
  unfold skip
  split <;> split <;> omega

theorem exists_skip {n k : Nat} (h : k ≠ n) : ∃ i, skip n i = k := by
  rcases Nat.lt_or_gt_of_ne h with hlt | hgt
  · exact ⟨k, if_pos hlt⟩
  · refine ⟨k - 1, ?_⟩
    unfold skip
    rw [if_neg (by omega)]
    omega

theorem getElem?_append_skip {α : Type} (k l : List α) (a : α) (i : Nat) :
    (k ++ l)[i]? = (k ++ a :: l)[skip k.length i]? := by
  unfold skip
  split
  · next h => rw [List.getElem?_append_left h, List.getElem?_append_left h]
  · next h =>
    rw [List.getElem?_append_right (by omega), List.getElem?_append_right (by omega),
      show i + 1 - k.length = (i - k.length) + 1 by omega, List.getElem?_cons_succ]

namespace SameData

variable {removable : Stmt → Prop} {out : NatSet} {f g : Nat → Nat}

theorem refl (b : Block) : SameData removable out (fun i => i) b b where
  apart := rfl
  order := fun _ _ h => h
  kept _ := rfl
  removed _ _ _ h := absurd rfl (h _)
  operands _ _ _ := rfl
  jump := rfl
  test _ _ := rfl
  live _ _ _ _ := rfl

theorem trans (hremovable : ∀ w w', w'.frame = w.frame → removable w' → removable w)
    (h : SameData removable out f b c) (h' : SameData removable out g c d) :
    SameData removable out (f ∘ g) b d where
  apart := by
    rw [h'.apart, h.apart]
  order := h.order.comp h'.order
  kept i := (h'.kept i).trans (h.kept (g i))
  removed k w hw hk := by
    by_cases hf : ∀ i, f i ≠ k
    · exact h.removed k w hw hf
    · obtain ⟨i, rfl⟩ : ∃ i, f i = k := by simpa using hf
      have hkept := h.kept i
      rw [hw, Option.map_some, Option.map_eq_some_iff] at hkept
      obtain ⟨w', hw', hframe⟩ := hkept
      apply hremovable w w' hframe
      apply h'.removed i w' hw'
      intro j hj
      exact hk j (congrArg f hj)
  operands D σ i := (h'.operands D σ i).trans (h.operands D σ (g i))
  jump := h'.jump.trans h.jump
  test D σ := (h'.test D σ).trans (h.test D σ)
  live D σ s hs := (h'.live D σ s hs).trans (h.live D σ s hs)

theorem length_le (h : SameData removable out f b c) : c.body.length ≤ b.body.length := by
  by_contra hlt
  have hkept := h.kept b.body.length
  rw [List.getElem?_eq_none (h.order.le_apply), List.getElem?_eq_getElem (by omega)] at hkept
  cases hkept

theorem of_erased {before later later' : List Stmt} {w : Stmt} (hb : b.body = before ++ w :: later)
    (hc : c.body = before ++ later') (hapart : c = { b with body := c.body, jump := c.jump })
    (hw : removable w) (hframe : later'.map Stmt.frame = later.map Stmt.frame)
    (htrace : ∀ {V : Type} (D : Denotation V) (σ : Store V),
      Stmt.trace D σ later' = Stmt.trace D (Stmt.perform D σ w) later)
    (hjump : c.jump.frame = b.jump.frame)
    (htest : ∀ {V : Type} (D : Denotation V) (σ : Store V),
      c.jump.testValue? D (Stmt.final D σ later') = b.jump.testValue? D (Stmt.final D (Stmt.perform D σ w) later))
    (hlive : ∀ {V : Type} (D : Denotation V) (σ : Store V), ∀ s ∈ out,
      Stmt.final D σ later' ⟨.slot, s⟩ = Stmt.final D (Stmt.perform D σ w) later ⟨.slot, s⟩) :
    SameData removable out (skip before.length) b c where
  apart := hapart
  order := strictMono_skip _
  kept i := by
    have := getElem?_append_skip (before.map Stmt.frame) (later.map Stmt.frame) w.frame i
    rw [List.length_map, ← hframe] at this
    rw [hb, hc, ← List.getElem?_map, ← List.getElem?_map, List.map_append, List.map_append, List.map_cons,
      ← hframe]
    exact this
  removed k w' hw' hk := by
    -- A place that nothing goes to is the one that was left out.
    have hplace : k = before.length := by
      by_contra hne
      obtain ⟨i, hi⟩ := exists_skip hne
      exact hk i hi
    rw [hb, hplace, List.getElem?_append_right le_rfl, Nat.sub_self] at hw'
    cases hw'
    exact hw
  operands D σ i := by
    have := getElem?_append_skip (Stmt.trace D σ before)
      (Stmt.trace D (Stmt.perform D (Stmt.final D σ before) w) later)
      (Stmt.operandValues D (Stmt.final D σ before) w) i
    rw [Stmt.length_trace] at this
    rw [hb, hc, Stmt.trace_append, Stmt.trace_append, Stmt.trace, htrace]
    exact this
  jump := hjump
  test D σ := by
    rw [hb, hc, Stmt.final_append, Stmt.final_append]
    exact htest D _
  live D σ s hs := by
    rw [hb, hc, Stmt.final_append, Stmt.final_append]
    exact hlive D _ s hs

end SameData

variable {guarded : Slot → Bool} {out : NatSet}

theorem Merges.sameData (h : Merges guarded out b c) (hb : b.plainCaptures = true) :
    ∃ f, SameData (Stmt.IsTemporary guarded) out f b c := by
  rw [plainCaptures_iff] at hb
  cases h with
  | @stmt before rest w t s e hbody hw hs h =>
    have hvalues {V : Type} (D : Denotation V) (σ : Store V) :
        Stmt.operandValues D σ (t.take s e) = Stmt.operandValues D (Stmt.perform D σ w) t := by
      rw [Stmt.perform_of_singleSlot? D σ hw]
      exact Stmt.operandValues_take D σ h (hb.1 t (by simp [hbody]))
    have halike {V : Type} (D : Denotation V) (σ : Store V) : Alike out b.jump rest
        (Stmt.perform D σ (t.take s e)) (Stmt.perform D (Stmt.perform D σ w) t) := by
      intro c hc
      obtain ⟨hc, hwritten⟩ := Stmt.ne_of_perform_ne (Stmt.frame_take s e t) (hvalues D σ) hc
      rw [Stmt.perform_of_singleSlot? D σ hw] at hc
      have hcs : c = ⟨.slot, s⟩ := by
        by_contra hne
        exact hc (σ.set_of_ne _ hne).symm
      subst hcs
      have hwritten : t.writtenSlots.contains s = false := by
        simpa [Stmt.writtenSlots] using hwritten
      simp only [Stmt.accepts, canInline, Bool.and_eq_true, hwritten, Bool.false_or] at h
      exact ⟨rfl, h.1.1.1.2⟩
    -- The two runs differ in the slot at most, and it is dead from here on.
    refine ⟨_, .of_erased hbody rfl rfl ⟨s, e, hw, hs⟩ ?_ ?_ rfl ?_ ?_⟩
    · simp [Stmt.frame_take]
    · intro V D σ
      exact congrArg₂ List.cons (hvalues D σ) (halike D σ).along.1
    · intro V D σ
      exact (halike D σ).along.2.testValue?_eq
    · intro V D σ s' hs'
      exact (halike D σ).along.2.slot_eq hs'
  | jump before hbody hw hs h =>
    next w s e =>
    refine ⟨_, .of_erased hbody (List.append_nil _).symm rfl ⟨s, e, hw, hs⟩ rfl ?_ (Jump.frame_take s e _) ?_ ?_⟩
    · intro V D σ
      rfl
    · intro V D σ
      rw [Stmt.perform_of_singleSlot? D σ hw]
      exact Jump.testValue?_take D σ h hb.2
    · intro V D σ s' hs'
      have hne : s' ≠ s := by
        rintro rfl
        simp [Jump.accepts, canInline, hs'] at h
      rw [Stmt.perform_of_singleSlot? D σ hw]
      exact (σ.set_of_ne _ (by simpa using hne)).symm

theorem exists_sameData (guarded : Slot → Bool) (out : NatSet) (hb : b.plainCaptures = true) :
    ∃ f, SameData (Stmt.IsTemporary guarded) out f b (b.inline guarded out) := by
  refine inline_keeps_plain (P := fun c => ∃ f, SameData (Stmt.IsTemporary guarded) out f b c) hb ⟨_, .refl b⟩ ?_
  rintro c d h hc ⟨f, hf⟩
  obtain ⟨g, hg⟩ := h.sameData hc
  exact ⟨_, hf.trans (fun _ _ hframe hw => hw.of_frame hframe) hg⟩

end Block

namespace Proto

/-- Inlining leaves out single writes to slots that are not protected, as many as it says. In every block the
other statements keep their order and are given the values they were given before, whatever the expressions
mean; so is the test of the jump, and the slots that are live behind the block hold the same. -/
theorem inline_sameData (p : Proto) (l : Liveness) (r : Protected) (hp : ∀ b ∈ p.blocks, b.plainCaptures = true) :
    (p.inline l r).2 + (p.inline l r).1.stmtCount = p.stmtCount ∧
      (p.inline l r).1 = { p with blocks := (p.inline l r).1.blocks } ∧
      List.Forall₂ (fun b c => ∃ place,
        Block.SameData (Stmt.IsTemporary (r.contains b.id)) (l.after b.id) place b c)
        p.blocks (p.inline l r).1.blocks := by
  refine ⟨stmtCount_inline p l r, rfl, ?_⟩
  rw [blocks_inline]
  refine List.forall₂_map_right_iff.2 (List.forall₂_same.2 ?_)
  intro b hb
  split
  · exact Block.exists_sameData _ _ (hp b hb)
  · exact ⟨_, .refl b⟩

def chained : Proto :=
  { id := 0, parameters := 1
    blocks := [
      ⟨0, 0, 0, [.store (.slot 1) (.call (.global "f") [.slot 0, .vararg])], .branch (.slot 1) 1 1⟩,
      ⟨1, 0, 0, [
        .store (.slot 1) (.call (.global "g") [.slot 0]),
        .store (.slot 2) (.binary .concat (.slot 1) (.upvalue 0)),
        .store (.slot 1) (.closure 0 [.slot 0]),
        .ret [.slot 2, .slot 1] 0], .leave⟩] }

theorem inline_sameData_chained :
    let l : Liveness := ⟨[NatSet.ofList [0], NatSet.ofList [0]], [NatSet.ofList [0], ∅]⟩
    (∀ b ∈ chained.blocks, b.plainCaptures = true) ∧ (chained.inline l ⟨1, []⟩).2 = 4 ∧
      List.Forall₂ (fun b c => ∃ place, Block.SameData
        (Stmt.IsTemporary (Protected.contains ⟨1, []⟩ b.id)) (l.after b.id) place b c)
        chained.blocks (chained.inline l ⟨1, []⟩).1.blocks := by
  have hplain : ∀ b ∈ chained.blocks, b.plainCaptures = true := by decide
  exact ⟨hplain, by cbv, (inline_sameData chained _ _ hplain).2.2⟩

end Proto

end LuaLift
