import LuaLift.Proofs.Flow.Reducible
import Mathlib.Data.List.Basic

namespace LuaLift

open Relation

/-- The nodes met on the way up from a node. -/
inductive Climbs (parent : Nat → Option Nat) : Nat → Nat → Prop
  | here (b : Nat) : Climbs parent b b
  | up {b c d : Nat} (h : parent b = some c) (hd : Climbs parent c d) : Climbs parent b d

namespace Digraph

variable {g : Digraph} {root d e b : Nat}

theorem Bypasses.either (hde : g.Bypasses d root e) (hed : g.Bypasses e root d) (hb : g.Reaches root b) :
    g.Bypasses d root b ∨ g.Bypasses e root b := by
  induction hb with
  | refl => exact .inl ⟨hde.1, .refl⟩
  | @tail a c _ hc ih =>
    rcases ih with ih | ih
    · by_cases hcd : c = d
      · exact .inr (hcd ▸ hed)
      · exact .inl (ih.tail hc hcd)
    · by_cases hce : c = e
      · exact .inl (hce ▸ hde)
      · exact .inr (ih.tail hc hce)

end Digraph

namespace Dominance

variable {g : Digraph} {root d e b : Nat} (hg : g.InRange) (hr : root < g.size)
include hg hr

theorem reaches_of_dominates (h : (of g root).dominates d b = true) : g.Reaches root d := by
  obtain ⟨hb, hn⟩ := (dominates_iff hg hr).1 h
  by_cases hd : d = root
  · exact hd ▸ .refl
  · obtain h | ⟨c, hc, hdc⟩ := Digraph.bypasses_or_arrives hd hb
    · exact absurd h hn
    · exact hc.2.reaches.tail hdc

theorem dominates_trans (hde : (of g root).dominates d e = true) (heb : (of g root).dominates e b = true) :
    (of g root).dominates d b = true :=
  (dominates_iff hg hr).2 ⟨((dominates_iff hg hr).1 heb).1, fun h =>
    ((dominates_iff hg hr).1 hde).2 (bypasses_dominator hg hr heb h)⟩

theorem dominates_total (hd : (of g root).dominates d b = true) (he : (of g root).dominates e b = true) :
    (of g root).dominates d e = true ∨ (of g root).dominates e d = true := by
  obtain ⟨hb, hdb⟩ := (dominates_iff hg hr).1 hd
  have heb := ((dominates_iff hg hr).1 he).2
  have hrd := reaches_of_dominates hg hr hd
  have hre := reaches_of_dominates hg hr he
  by_cases hde : g.Bypasses d root e
  · refine .inr ((dominates_iff hg hr).2 ⟨hrd, fun hed => ?_⟩)
    exact (hde.either hed hb).elim hdb heb
  · exact .inl ((dominates_iff hg hr).2 ⟨hre, hde⟩)

theorem exists_lowest {l : List Nat} (hl : l ≠ []) (h : ∀ d ∈ l, (of g root).dominates d b = true) :
    ∃ d ∈ l, ∀ e ∈ l, (of g root).dominates e d = true := by
  induction l with
  | nil => exact absurd rfl hl
  | cons x l ih =>
    have hx := h x (.head _)
    have hxx := dominates_refl hg hr (reaches_of_dominates hg hr hx)
    by_cases hn : l = []
    · exact ⟨x, .head _, fun e he => by simpa [List.mem_singleton.1 (hn ▸ he)] using hxx⟩
    · obtain ⟨d, hd, hall⟩ := ih hn fun d hd => h d (.tail _ hd)
      rcases dominates_total hg hr hx (h d (.tail _ hd)) with hxd | hdx
      · exact ⟨d, .tail _ hd, List.forall_mem_cons.2 ⟨hxd, hall⟩⟩
      · exact ⟨x, .head _, List.forall_mem_cons.2 ⟨hxx, fun e he => dominates_trans hg hr (hall e he) hdx⟩⟩

theorem exists_immediate (hd : (of g root).dominates d b = true) (hne : d ≠ b) :
    ∃ i, (of g root).immediate? b = some i := by
  have hmem {e : Nat} : e ∈ (of g root).strictDominators b ↔ (of g root).dominates e b = true ∧ e ≠ b := by
    simp only [strictDominators, dominators, List.mem_filter, List.mem_range, decide_eq_true_eq]
    exact ⟨fun h => ⟨h.1.2, h.2⟩, fun h => ⟨⟨lt_size_of_dominates hg hr h.1, h.1⟩, h.2⟩⟩
  obtain ⟨i, hi, hall⟩ := exists_lowest hg hr (List.ne_nil_of_mem (hmem.2 ⟨hd, hne⟩))
    fun e he => (hmem.1 he).1
  exact Option.isSome_iff_exists.1 (List.find?_isSome.2 ⟨i, hi, List.all_eq_true.2 hall⟩)

theorem length_dominators_lt {c : Nat} (h : (of g root).immediate? b = some c) :
    ((of g root).dominators c).length < ((of g root).dominators b).length := by
  obtain ⟨hcb, hne, -⟩ := (immediate?_eq_some_iff hg hr).1 h
  have hsub : ((of g root).dominators c).Sublist ((of g root).dominators b) :=
    List.monotone_filter_right _ fun _ he => dominates_trans hg hr he hcb
  refine Nat.lt_of_le_of_ne hsub.length_le fun hlen => ?_
  have hb : b ∈ (of g root).dominators b := by
    have hbb := dominates_refl hg hr ((dominates_iff hg hr).1 hcb).1
    exact List.mem_filter.2 ⟨List.mem_range.2 (lt_size_of_dominates hg hr hbb), hbb⟩
  rw [← hsub.eq_of_length hlen] at hb
  exact hne (dominates_antisymm hg hr hcb (List.mem_filter.1 hb).2)

theorem climbs_iff (hb : g.Reaches root b) :
    Climbs (of g root).immediate? b d ↔ (of g root).dominates d b = true := by
  constructor
  · intro h
    induction h with
    | here b => exact dominates_refl hg hr hb
    | up h hd ih =>
      have hcb := ((immediate?_eq_some_iff hg hr).1 h).1
      exact dominates_trans hg hr (ih (reaches_of_dominates hg hr hcb)) hcb
  · intro h
    induction hk : ((of g root).dominators b).length using Nat.strongRecOn generalizing b with
    | _ k ih =>
      by_cases hdb : d = b
      · exact hdb ▸ .here d
      · obtain ⟨c, hc⟩ := exists_immediate hg hr h hdb
        obtain ⟨hcb, -, hall⟩ := (immediate?_eq_some_iff hg hr).1 hc
        have hlt := length_dominators_lt hg hr hc
        exact .up hc (ih _ (hk ▸ hlt) (reaches_of_dominates hg hr hcb) (hall d h hdb) rfl)

end Dominance

namespace Flow

variable {f : Flow} {a b d : BlockId}

def Dominates (f : Flow) (d b : BlockId) : Prop := f.graph.Reaches 0 b ∧ ¬ f.graph.Bypasses d 0 b

def Returns (f : Flow) (a b : BlockId) : Prop := b ∈ f.successors a ∧ f.Dominates b a

/-- An edge whose source can be reached without passing its target. -/
def Onward (f : Flow) (a b : BlockId) : Prop := b ∈ f.successors a ∧ f.graph.Bypasses b 0 a

variable (hf : f.Rooted)
include hf

theorem Rooted.dominates_eq_true_iff : f.dominance.dominates d b = true ↔ f.Dominates d b := by
  rw [hf.dominates_iff, Dominates, hf.isReachable_iff]

theorem Rooted.returns_iff : f.Returns a b ↔ f.BackEdge a b := by
  rw [Returns, ← hf.dominates_eq_true_iff]
  exact ⟨fun h => ⟨(hf.dominates_iff.1 h.2).1, h.1, h.2⟩, fun h => ⟨h.edge, h.back⟩⟩

theorem Rooted.onward_iff : f.Onward a b ↔ f.Forward a b := by
  constructor
  · rintro ⟨he, hb⟩
    exact ⟨hf.isReachable_iff.2 hb.2.reaches, he, Bool.eq_false_iff.2 fun hd => (hf.dominates_iff.1 hd).2 hb⟩
  · intro h
    refine ⟨h.edge, Classical.byContradiction fun hn => ?_⟩
    exact Bool.eq_false_iff.1 h.forward (hf.dominates_iff.2 ⟨h.reachable, hn⟩)

end Flow

end LuaLift
