import LuaLift.Flow.Dominance
import LuaLift.Proofs.Flow.Walk

namespace LuaLift

open Relation

namespace Digraph

variable (g : Digraph)

def Bypasses (d root b : Nat) : Prop := root ≠ d ∧ g.ReachesIn (· ≠ d) root b

variable {g}

theorem Bypasses.tail {d root a b : Nat} (h : g.Bypasses d root a) (hb : b ∈ g.succ a) (hd : b ≠ d) :
    g.Bypasses d root b := ⟨h.1, h.2.tail ⟨hb, hd⟩⟩

theorem Bypasses.ne {d root b : Nat} (h : g.Bypasses d root b) : b ≠ d := by
  obtain ⟨hr, h⟩ := h
  cases h with
  | refl => exact hr
  | tail _ hb => exact hb.2

theorem bypasses_or_arrives {root x a : Nat} (hx : x ≠ root) (ha : g.Reaches root a) :
    g.Bypasses x root a ∨ ∃ c, g.Bypasses x root c ∧ x ∈ g.succ c := by
  induction ha with
  | refl => exact .inl ⟨Ne.symm hx, .refl⟩
  | @tail b c _ hc ih =>
    rcases ih with ih | ih
    · by_cases hcx : c = x
      · exact .inr ⟨b, ih, hcx ▸ hc⟩
      · exact .inl (ih.tail hc hcx)
    · exact .inr ih

end Digraph

namespace Dominance

variable {g : Digraph} {root : Nat}

section Paths

variable (hg : g.InRange) (hr : root < g.size)
include hg hr

theorem dominates_iff {d b : Nat} :
    (of g root).dominates d b = true ↔ g.Reaches root b ∧ ¬ g.Bypasses d root b := by
  simp only [dominates, of, Digraph.reach, Bool.and_eq_true, List.contains_eq_mem, decide_eq_true_eq,
    Bool.not_eq_true', decide_eq_false_iff_not, Digraph.mem_walkFrom hg hr, List.getElem?_map]
  refine and_congr_right fun hb => not_congr ?_
  by_cases hd : d < g.size
  · simp only [List.getElem?_range hd, Option.map_some, Option.getD_some,
      Digraph.mem_reachAvoiding hg hr, Digraph.Bypasses]
  · have hn : (List.range g.size)[d]? = none := by simpa using hd
    simp only [hn, Option.map_none, Option.getD_none, Digraph.mem_walkFrom hg hr, hb, true_iff,
      Digraph.Bypasses]
    refine ⟨by omega, ReflTransGen.mono (fun x y h => ⟨h, ?_⟩) _ _ hb⟩
    have := hg x y h
    omega

theorem dominates_refl {b : Nat} (hb : g.Reaches root b) : (of g root).dominates b b = true :=
  (dominates_iff hg hr).2 ⟨hb, fun h => h.ne rfl⟩

theorem dominates_source {d a b : Nat} (h : (of g root).dominates d b = true) (ha : g.Reaches root a)
    (hb : b ∈ g.succ a) (hd : b ≠ d) : (of g root).dominates d a = true :=
  (dominates_iff hg hr).2 ⟨ha, fun hn => ((dominates_iff hg hr).1 h).2 (hn.tail hb hd)⟩

theorem lt_size_of_dominates {d b : Nat} (h : (of g root).dominates d b = true) : d < g.size := by
  obtain ⟨hb, hn⟩ := (dominates_iff hg hr).1 h
  refine Nat.lt_of_not_le fun hd => hn ⟨by omega, ReflTransGen.mono (fun x y h => ⟨h, ?_⟩) _ _ hb⟩
  have := hg x y h
  omega

theorem bypasses_dominator {d b c : Nat} (h : (of g root).dominates b c = true)
    (hc : g.Bypasses d root c) : g.Bypasses d root b := by
  have hb := ((dominates_iff hg hr).1 h).2
  have through : g.Bypasses b root c ∨ g.Bypasses d root b := by
    obtain ⟨hd, hp⟩ := hc
    clear h hb
    induction hp with
    | refl =>
      by_cases hrb : root = b
      · exact .inr ⟨hd, hrb ▸ .refl⟩
      · exact .inl ⟨hrb, .refl⟩
    | @tail a c ha hc ih =>
      rcases ih with ih | ih
      · by_cases hcb : c = b
        · exact .inr ⟨hd, hcb ▸ ha.tail hc⟩
        · exact .inl (ih.tail hc.1 hcb)
      · exact .inr ih
  exact through.resolve_left hb

theorem dominates_antisymm {d b : Nat} (hdb : (of g root).dominates d b = true)
    (hbd : (of g root).dominates b d = true) : d = b := by
  obtain ⟨hb, hnb⟩ := (dominates_iff hg hr).1 hdb
  obtain ⟨hd, hnd⟩ := (dominates_iff hg hr).1 hbd
  refine Classical.byContradiction fun hne => ?_
  have hroot : d ≠ root := by
    rintro rfl
    exact hnd ⟨hne, .refl⟩
  rcases Digraph.bypasses_or_arrives hroot hb with h | ⟨c, hc, hdc⟩
  · exact hnb h
  · have hbc := dominates_source hg hr hbd hc.2.reaches hdc hne
    exact hnb (bypasses_dominator hg hr hbc hc)

end Paths

theorem immediate?_eq_some {m : Dominance} {b d : Nat} (h : m.immediate? b = some d) :
    m.dominates d b = true ∧ d ≠ b ∧
      ∀ e < m.size, m.dominates e b = true → e ≠ b → m.dominates e d = true := by
  simp only [immediate?] at h
  have hd := List.mem_of_find?_eq_some h
  have hall := List.find?_some h
  simp only [strictDominators, dominators, List.mem_filter, List.mem_range, decide_eq_true_eq,
    List.all_eq_true] at hd hall
  exact ⟨hd.1.2, hd.2, fun e he heb hne => hall e ⟨⟨he, heb⟩, hne⟩⟩

theorem immediate?_eq_some_iff (hg : g.InRange) (hr : root < g.size) {b d : Nat} :
    (of g root).immediate? b = some d ↔
    (of g root).dominates d b = true ∧ d ≠ b ∧
      ∀ e, (of g root).dominates e b = true → e ≠ b → (of g root).dominates e d = true := by
  constructor
  · intro h
    obtain ⟨hd, hne, hall⟩ := immediate?_eq_some h
    exact ⟨hd, hne, fun e he => hall e (lt_size_of_dominates hg hr he) he⟩
  · rintro ⟨hd, hne, hall⟩
    cases h : (of g root).immediate? b with
    | some e =>
      obtain ⟨he, hen, hall'⟩ := immediate?_eq_some h
      exact congrArg some
        (dominates_antisymm hg hr (hall e he hen) (hall' d (lt_size_of_dominates hg hr hd) hd hne))
    | none =>
      have hmem : d ∈ (of g root).strictDominators b := by
        simp only [strictDominators, dominators, List.mem_filter, List.mem_range, decide_eq_true_eq]
        exact ⟨⟨lt_size_of_dominates hg hr hd, hd⟩, hne⟩
      have := List.find?_eq_none.1 h d hmem
      simp only [List.all_eq_true, strictDominators, dominators, List.mem_filter, decide_eq_true_eq] at this
      exact absurd (fun e he => hall e he.1.2 he.2) this

end Dominance

end LuaLift
