import LuaLift.Proofs.Slots.Store
import LuaLift.Proofs.Syntax.Substitution

namespace LuaLift

structure Denotation (V : Type) where
  nil : V
  upvalue : Nat → V
  global : String → V
  constant : Constant → V
  vararg : List V
  index : V → V → V
  unary : UnaryOp → V → V
  binary : BinaryOp → V → V → V
  call : V → List V → List V
  closure : Nat → List V → V
  table : List V → List (V × V) → V

namespace Denotation

variable {V : Type} (D : Denotation V)

def first (l : List V) : V := l.headD D.nil

def spread : List (List V) → List V
  | [] => []
  | [l] => l
  | l :: m :: ls => D.first l :: spread (m :: ls)

mutual

def values (σ : Store V) : Expr → List V
  | .slot s => [(σ ⟨.slot, s⟩).getD D.nil]
  | .var v => [(σ ⟨.var, v⟩).getD D.nil]
  | .upvalue n => [D.upvalue n]
  | .global g => [D.global g]
  | .constant c => [D.constant c]
  | .vararg => D.vararg
  | .index t k => [D.index (D.first (values σ t)) (D.first (values σ k))]
  | .unary op e => [D.unary op (D.first (values σ e))]
  | .binary op a b => [D.binary op (D.first (values σ a)) (D.first (values σ b))]
  | .call f as => D.call (D.first (values σ f)) (D.spread (valuesEach σ as))
  | .closure p cs => [D.closure p ((valuesEach σ cs).map D.first)]
  | .table as rs => [D.table (D.spread (valuesEach σ as)) (valuesRecords σ rs)]

def valuesEach (σ : Store V) : List Expr → List (List V)
  | [] => []
  | e :: es => values σ e :: valuesEach σ es

def valuesRecords (σ : Store V) : List (Expr × Expr) → List (V × V)
  | [] => []
  | (k, v) :: rs => (D.first (values σ k), D.first (values σ v)) :: valuesRecords σ rs

end

def value (σ : Store V) (e : Expr) : V := D.first (D.values σ e)

@[simp] theorem length_valuesEach (σ : Store V) (es : List Expr) : (D.valuesEach σ es).length = es.length := by
  induction es with
  | nil => rfl
  | cons e es ih => simp [valuesEach, ih]

theorem values_of_single {e : Expr} (h : e.isMultiValue = false) (σ : Store V) :
    D.values σ e = [D.value σ e] := by
  cases e <;> first | rfl | cases h

section Congr

variable {σ τ : Store V}

mutual

theorem values_congr : (e : Expr) → (∀ c ∈ e.cells, σ c = τ c) → D.values σ e = D.values τ e
  | .slot s, h => by rw [values, values, h _ (.head _)]
  | .var v, h => by rw [values, values, h _ (.head _)]
  | .upvalue _, _ | .global _, _ | .constant _, _ | .vararg, _ => rfl
  | .index t k, h => by
    rw [Expr.cells_index, List.forall_mem_append] at h
    rw [values, values, values_congr t h.1, values_congr k h.2]
  | .unary op e, h => by
    rw [Expr.cells_unary] at h
    rw [values, values, values_congr e h]
  | .binary op a b, h => by
    rw [Expr.cells_binary, List.forall_mem_append] at h
    rw [values, values, values_congr a h.1, values_congr b h.2]
  | .call f as, h => by
    rw [Expr.cells_call, List.forall_mem_append] at h
    rw [values, values, values_congr f h.1, valuesEach_congr as h.2]
  | .closure p cs, h => by
    rw [Expr.cells_closure] at h
    rw [values, values, valuesEach_congr cs h]
  | .table as rs, h => by
    rw [Expr.cells_table, List.forall_mem_append] at h
    rw [values, values, valuesEach_congr as h.1, valuesRecords_congr rs h.2]

theorem valuesEach_congr : (es : List Expr) → (∀ c ∈ es.flatMap Expr.cells, σ c = τ c) →
    D.valuesEach σ es = D.valuesEach τ es
  | [], _ => rfl
  | e :: es, h => by
    rw [List.flatMap_cons, List.forall_mem_append] at h
    rw [valuesEach, valuesEach, values_congr e h.1, valuesEach_congr es h.2]

theorem valuesRecords_congr : (rs : List (Expr × Expr)) →
    (∀ c ∈ rs.flatMap fun r => r.1.cells ++ r.2.cells, σ c = τ c) →
    D.valuesRecords σ rs = D.valuesRecords τ rs
  | [], _ => rfl
  | (k, v) :: rs, h => by
    rw [List.flatMap_cons, List.forall_mem_append, List.forall_mem_append] at h
    rw [valuesRecords, valuesRecords, values_congr k h.1.1, values_congr v h.1.2, valuesRecords_congr rs h.2]

end

end Congr

end Denotation

namespace Expr

section Idle

variable {c : Cell} {o : Option Expr}

mutual

theorem substitute_idle : (e : Expr) → (c ∈ e.cells → o = none) → e.substitute c o = (e, o)
  | slot s, h => by
    rw [substitute]
    split
    · next hc => rw [h (hc ▸ List.mem_singleton_self _), Option.getD_none]
    · rfl
  | var v, h => by
    rw [substitute]
    split
    · next hc => rw [h (hc ▸ List.mem_singleton_self _), Option.getD_none]
    · rfl
  | upvalue _, _ | global _, _ | constant _, _ | vararg, _ | closure _ _, _ => rfl
  | index t k, h => by
    simp only [cells_index, List.mem_append, or_imp] at h
    simp only [substitute, substitute_idle t h.1, substitute_idle k h.2]
  | unary op e, h => by
    rw [cells_unary] at h
    simp only [substitute, substitute_idle e h]
  | binary op a b, h => by
    simp only [cells_binary, List.mem_append, or_imp] at h
    simp only [substitute, substitute_idle a h.1, substitute_idle b h.2]
  | call f as, h => by
    simp only [cells_call, List.mem_append, or_imp] at h
    simp only [substitute, substitute_idle f h.1, substituteList_idle as h.2]
  | table as rs, h => by
    simp only [cells_table, List.mem_append, or_imp] at h
    simp only [substitute, substituteList_idle as h.1, substituteRecords_idle rs h.2]

theorem substituteList_idle : (es : List Expr) → (c ∈ es.flatMap cells → o = none) →
    substituteList c es o = (es, o)
  | [], _ => rfl
  | e :: es, h => by
    simp only [List.flatMap_cons, List.mem_append, or_imp] at h
    simp only [substituteList, substitute_idle e h.1, substituteList_idle es h.2]

theorem substituteRecords_idle : (rs : List (Expr × Expr)) →
    ((c ∈ rs.flatMap fun r => r.1.cells ++ r.2.cells) → o = none) → substituteRecords c rs o = (rs, o)
  | [], _ => rfl
  | (k, v) :: rs, h => by
    simp only [List.flatMap_cons, List.mem_append, or_imp] at h
    simp only [substituteRecords, substitute_idle k h.1.1, substitute_idle v h.1.2, substituteRecords_idle rs h.2]

end

end Idle

end Expr

variable {V : Type}

def Expr.targetFrame : Expr → Expr
  | index _ _ => index default default
  | e => e

theorem Expr.cell?_targetFrame (e : Expr) : e.targetFrame.cell? = e.cell? := by
  cases e <;> rfl

namespace Stmt

def frame : Stmt → Stmt
  | assign a =>
    assign { a with targets := a.targets.map Expr.targetFrame, values := a.values.map fun _ => default }
  | call _ as l => call default (as.map fun _ => default) l
  | ret vs l => ret (vs.map fun _ => default) l
  | declare vs => declare vs

section Effects

variable (D : Denotation V) (σ : Store V)

def given (a : Assignment) : List V :=
  if a.values.length < a.targets.length then D.spread (D.valuesEach σ a.values)
  else (D.valuesEach σ a.values).map D.first

def operandValues : Stmt → List (List V)
  | assign a => [(D.valuesEach σ (a.targets.flatMap Expr.targetOperands)).map D.first, given D σ a]
  | call f as _ => [[D.value σ f], D.spread (D.valuesEach σ as)]
  | ret vs _ => [D.spread (D.valuesEach σ vs)]
  | declare _ => []

def perform : Stmt → Store V
  | assign a => assignAll (fun i => (given D σ a)[i]?.getD D.nil) σ a.targets.zipIdx
  | declare vs => σ.forget vs
  | _ => σ

def final (l : List Stmt) : Store V := l.foldl (perform D) σ

def trace : Store V → List Stmt → List (List (List V))
  | _, [] => []
  | σ, s :: rest => operandValues D σ s :: trace (perform D σ s) rest

end Effects

variable {D : Denotation V} {σ τ : Store V}

theorem final_append (k l : List Stmt) : final D σ (k ++ l) = final D (final D σ k) l := List.foldl_append

theorem trace_append (k l : List Stmt) : trace D σ (k ++ l) = trace D σ k ++ trace D (final D σ k) l := by
  induction k generalizing σ with
  | nil => rfl
  | cons t k ih => exact congrArg (_ :: ·) ih

@[simp] theorem length_trace (l : List Stmt) : (trace D σ l).length = l.length := by
  induction l generalizing σ with
  | nil => rfl
  | cons t l ih => simp [trace, ih]

theorem assignAll_targetFrame (value : Nat → V) (targets : List Expr) :
    assignAll value σ (targets.map Expr.targetFrame).zipIdx = assignAll value σ targets.zipIdx := by
  rw [List.zipIdx_map, assignAll, List.foldl_map]
  simp only [Prod.map_fst, Prod.map_snd, id_eq, Expr.cell?_targetFrame]
  rfl

theorem ne_of_perform_ne {t t' : Stmt} (hframe : t'.frame = t.frame)
    (hvalues : operandValues D σ t' = operandValues D τ t) {c : Cell}
    (hc : perform D σ t' c ≠ perform D τ t c) : σ c ≠ τ c ∧ c.index ∉ t.writes c.kind := by
  cases t' <;> cases t <;> simp only [frame, reduceCtorEq] at hframe
  · next a' a =>
    have htargets : a'.targets.map Expr.targetFrame = a.targets.map Expr.targetFrame := by
      injection hframe with h
      exact congrArg Assignment.targets h
    have hgiven : given D σ a' = given D τ a := by
      simp only [operandValues, List.cons.injEq] at hvalues
      exact hvalues.2.1
    rw [perform, perform, hgiven, ← assignAll_targetFrame, htargets, assignAll_targetFrame] at hc
    by_cases hmem : c ∈ a.targets.zipIdx.filterMap fun t => t.1.cell?
    · exact absurd (assignAll_of_mem _ _ hmem) hc
    · rw [assignAll_of_not_mem hmem, assignAll_of_not_mem hmem] at hc
      exact ⟨hc, mt mem_targets_iff.2 hmem⟩
  · exact ⟨hc, List.not_mem_nil⟩
  · exact ⟨hc, List.not_mem_nil⟩
  · next vs' vs =>
    injection hframe with hvs
    subst hvs
    refine ⟨fun h => hc ?_, List.not_mem_nil⟩
    obtain ⟨_ | _, i⟩ := c
    · exact h
    · simp [perform, Store.forget, h]

theorem operandValues_congr (t : Stmt) (h : ∀ c ∈ t.operands.flatMap Expr.cells, σ c = τ c) :
    operandValues D σ t = operandValues D τ t := by
  cases t with
  | assign a =>
    rw [operands, List.flatMap_append, List.forall_mem_append] at h
    rw [operandValues, operandValues, given, given, D.valuesEach_congr _ h.1, D.valuesEach_congr _ h.2]
  | call f as =>
    rw [operands, List.flatMap_cons, List.forall_mem_append] at h
    rw [operandValues, operandValues, Denotation.value, Denotation.value, D.values_congr _ h.1,
      D.valuesEach_congr _ h.2]
  | ret vs => exact congrArg (fun l => [D.spread l]) (D.valuesEach_congr vs h)
  | declare vs => rfl

end Stmt

end LuaLift
