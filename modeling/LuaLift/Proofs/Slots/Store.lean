import LuaLift.Proofs.Proto.Shape
import LuaLift.Proofs.Syntax.Cells
import LuaLift.Syntax.Locals
import Mathlib.Data.List.Chain

namespace LuaLift

abbrev Store (V : Type) := Cell → Option V

abbrev Seen (V : Type) := List Expr × List (Option V)

abbrev Valuation (V : Type) := Seen V → Nat → V

variable {V : Type}

namespace Store

def set (σ : Store V) (c : Cell) (x : V) : Store V := fun d => if d = c then some x else σ d

@[simp] theorem set_self (σ : Store V) (c : Cell) (x : V) : σ.set c x c = some x := if_pos rfl

theorem set_of_ne (σ : Store V) {c d : Cell} (x : V) (h : d ≠ c) : σ.set c x d = σ d := if_neg h

def forget (σ : Store V) (vs : List LocalId) : Store V
  | ⟨.var, v⟩ => if v ∈ vs then none else σ ⟨.var, v⟩
  | c => σ c

@[simp] theorem forget_nil (σ : Store V) : σ.forget [] = σ := by
  funext ⟨kind, i⟩
  cases kind <;> simp [forget]

def see (σ : Store V) (es : List Expr) : Seen V :=
  (es.map Expr.form, (es.flatMap Expr.cells).map σ)

def ofSlots (parameters : Nat) (args : Slot → V) : Store V
  | ⟨.slot, s⟩ => if s < parameters then some (args s) else none
  | ⟨.var, _⟩ => none

def ofLocals (t : Locals) (args : Slot → V) : Store V
  | ⟨.slot, _⟩ => none
  | ⟨.var, v⟩ => (t.get? v).bind fun l => if l.kind = .parameter then some (args l.slot) else none

end Store

namespace Stmt

def assignAll (value : Nat → V) (σ : Store V) (targets : List (Expr × Nat)) : Store V :=
  targets.foldl (fun τ (e, i) => (e.cell?.map fun c => τ.set c (value i)).getD τ) σ

def execute (I : Valuation V) (σ : Store V) : Stmt → Store V
  | assign a => assignAll (I (σ.see a.values)) σ a.targets.zipIdx
  | _ => σ

def along (I : Valuation V) : List Stmt → Store V → List (Seen V) × Store V
  | [], σ => ([], σ)
  | s :: rest, σ =>
    let (seen, τ) := along I rest (s.execute I σ)
    (σ.see s.operands :: seen, τ)

section Assign

variable {value : Nat → V} {targets : List (Expr × Nat)} {c : Cell}

theorem assignAll_of_not_mem {σ : Store V} (h : c ∉ targets.filterMap fun t => t.1.cell?) :
    assignAll value σ targets c = σ c := by
  unfold assignAll
  induction targets generalizing σ with
  | nil => rfl
  | cons t targets ih =>
    obtain ⟨e, i⟩ := t
    rw [List.foldl_cons]
    cases he : e.cell? with
    | none =>
      rw [List.filterMap_cons_none (by exact he)] at h
      simpa [he] using ih h
    | some d =>
      rw [List.filterMap_cons_some (by exact he), List.mem_cons, not_or] at h
      rw [ih h.2]
      simpa [he] using Store.set_of_ne σ (value i) h.1

theorem assignAll_of_mem (σ τ : Store V) (h : c ∈ targets.filterMap fun t => t.1.cell?) :
    assignAll value σ targets c = assignAll value τ targets c := by
  unfold assignAll
  induction targets generalizing σ τ with
  | nil => cases h
  | cons t targets ih =>
    obtain ⟨e, i⟩ := t
    rw [List.foldl_cons, List.foldl_cons]
    by_cases hc : c ∈ targets.filterMap fun t => t.1.cell?
    · exact ih _ _ hc
    · have he : e.cell? = some c := by
        obtain ⟨u, hu, hcell⟩ := List.mem_filterMap.1 h
        rcases List.mem_cons.1 hu with rfl | hu
        · exact hcell
        · exact absurd (List.mem_filterMap.2 ⟨u, hu, hcell⟩) hc
      have base (ρ : Store V) : assignAll value ρ targets c = ρ c := assignAll_of_not_mem hc
      unfold assignAll at base
      rw [base, base]
      simp [he]

theorem mem_writes {a : Assignment} {kind : CellKind} {i : Nat} :
    i ∈ (assign a).writes kind ↔ (⟨kind, i⟩ : Cell) ∈ a.targets.filterMap Expr.cell? := by
  simp only [writes, List.mem_filterMap, Expr.cellOf?, Option.bind_eq_some_iff]
  constructor
  · rintro ⟨e, he, ⟨kind, i⟩, hc, h⟩
    split at h
    · next hk =>
      cases h
      cases hk
      exact ⟨e, he, hc⟩
    · cases h
  · rintro ⟨e, he, hc⟩
    exact ⟨e, he, _, hc, if_pos rfl⟩

theorem mem_targets_iff {a : Assignment} {kind : CellKind} {i : Nat} :
    (⟨kind, i⟩ : Cell) ∈ (a.targets.zipIdx.filterMap fun t => t.1.cell?) ↔ i ∈ (assign a).writes kind := by
  have hmap : (a.targets.zipIdx.filterMap fun t => t.1.cell?) = a.targets.filterMap Expr.cell? := by
    conv_rhs => rw [← List.zipIdx_map_fst 0 a.targets, List.filterMap_map]
    rfl
  rw [hmap, mem_writes]

end Assign

end Stmt

namespace Proto

def visit (I : Valuation V) (p : Proto) (b : BlockId) (σ : Store V) : List (Seen V) × Store V :=
  let (seen, τ) := Stmt.along I (p.body b) σ
  (seen ++ [τ.see (p.jump b).condition?.toList], τ)

def seenAlong (I : Valuation V) (p : Proto) : List BlockId → Store V → List (List (Seen V))
  | [], _ => []
  | b :: path, σ => (p.visit I b σ).1 :: seenAlong I p path (p.visit I b σ).2

structure IsPath (p : Proto) (path : List BlockId) : Prop where
  entry : ∀ b ∈ path.head?, b = 0
  chain : path.IsChain fun a b => b ∈ (p.jump a).targets

def VarFree (p : Proto) : Prop := p.blocks.all fun b =>
  b.body.all (fun s => s.readVars.isEmpty && s.writtenVars.isEmpty) && (b.jump.reads .var).isEmpty

def SlotFree (p : Proto) (b : BlockId) : Prop :=
  (∀ s ∈ p.body b, s.readSlots = [] ∧ s.writtenSlots = []) ∧ (p.jump b).reads .slot = []

end Proto

end LuaLift
