import LuaLift.Proofs.Flow.DominatorTree
import LuaLift.Proofs.Proto.Shape
import Mathlib

/-!
A graph is reducible if its edges onward close no cycle, and only then. The path of the walk is simple, so no
step of it goes back to a dominator; whatever order the walk takes, its verdict is the same.
-/

namespace LuaLift

open Relation

namespace Digraph

variable {g : Digraph} {root : Nat}

inductive Trail (g : Digraph) (root : Nat) : List Nat → Prop
  | root : Trail g root [root]
  | step {a b : Nat} {q : List Nat} (h : Trail g root (a :: q)) (hb : b ∈ g.succ a)
      (hn : b ∉ a :: q) : Trail g root (b :: a :: q)

namespace Trail

theorem bypasses {a d : Nat} {q : List Nat} (h : g.Trail root (a :: q)) (hd : d ∉ a :: q) :
    g.Bypasses d root a := by
  generalize hp : a :: q = p at h hd
  induction h generalizing a q with
  | root =>
    cases hp
    exact ⟨fun h => hd (h ▸ .head _), .refl⟩
  | step h hb hn ih =>
    cases hp
    exact (ih rfl fun h => hd (.tail _ h)).tail hb fun h => hd (h ▸ .head _)

def Offers (g : Digraph) (root : Nat) (path ts : List Nat) : Prop :=
  path = [] ∧ (∀ t ∈ ts, t = root) ∨
    ∃ a q, path = a :: q ∧ g.Trail root path ∧ ∀ t ∈ ts, t ∈ g.succ a

theorem Offers.tail {path ts : List Nat} {t : Nat} (h : Offers g root path (t :: ts)) :
    Offers g root path ts := by
  obtain ⟨hp, ht⟩ | ⟨a, q, hp, hq, ht⟩ := h
  · exact .inl ⟨hp, fun t h => ht t (.tail _ h)⟩
  · exact .inr ⟨a, q, hp, hq, fun t h => ht t (.tail _ h)⟩

theorem Offers.enter {path ts : List Nat} {t : Nat} (h : Offers g root path (t :: ts))
    (hn : t ∉ path) : Offers g root (t :: path) (g.succ t) := by
  refine .inr ⟨t, path, rfl, ?_, fun _ h => h⟩
  obtain ⟨rfl, ht⟩ | ⟨a, q, rfl, hq, ht⟩ := h
  · obtain rfl := ht t (.head _)
    exact .root
  · exact .step hq (ht t (.head _)) hn

theorem of_retreating {path unseen ts : List Nat} {w : Walk} (h : g.Walks path unseen ts w)
    (ho : Offers g root path ts) {a t : Nat} (he : (a, t) ∈ w.retreating) :
    ∃ q, g.Trail root (a :: q) ∧ t ∈ a :: q ∧ t ∈ g.succ a := by
  induction h with
  | nil => cases he
  | @back path unseen ts s w hs hw ih =>
    rcases List.mem_append.1 he with he | he
    · obtain ⟨rfl, -⟩ | ⟨b, q, rfl, hq, hb⟩ := ho
      · cases hs
      · obtain ⟨rfl, rfl⟩ : a = b ∧ t = s := by simpa using he
        exact ⟨q, hq, hs, hb t (.head _)⟩
    · exact ih ho.tail he
  | enter hn hu hv hw ihv ihw =>
    rcases List.mem_append.1 he with he | he
    · exact ihv (ho.enter hn) he
    · exact ihw ho.tail he
  | seen hn hu hw ih => exact ih ho.tail he

end Trail

end Digraph

namespace Flow

variable {f : Flow}

theorem Rooted.forward_of_trail (hf : f.Rooted) {a b : BlockId} {q : List BlockId}
    (h : f.graph.Trail 0 (b :: a :: q)) : f.Forward a b := by
  cases h with
  | step h hb hn =>
    have hby := h.bypasses hn
    refine ⟨hf.isReachable_iff.2 hby.2.reaches, hb, Bool.eq_false_iff.2 fun hd => ?_⟩
    exact (hf.dominates_iff.1 hd).2 hby

theorem Rooted.forward_along (hf : f.Rooted) {a t : BlockId} {q : List BlockId}
    (h : f.graph.Trail 0 (a :: q)) (ht : t ∈ a :: q) : ReflTransGen f.Forward t a := by
  induction q generalizing a with
  | nil => exact List.mem_singleton.1 ht ▸ .refl
  | cons b q ih =>
    rcases List.mem_cons.1 ht with rfl | ht
    · exact .refl
    · have hb : f.graph.Trail 0 (b :: q) := by cases h; assumption
      exact (ih hb ht).tail (hf.forward_of_trail h)

theorem Rooted.reducible_of_acyclic (hf : f.Rooted)
    (h : ∀ a b, f.Forward a b → ¬ ReflTransGen f.Forward b a) : f.Reducible := by
  refine List.find?_eq_none.2 fun e he hd => ?_
  obtain ⟨a, t⟩ := e
  rw [f.walk_eq] at he
  obtain ⟨q, hq, ht, hs⟩ := Digraph.Trail.of_retreating (f.graph.walks [] _ _)
    (.inl ⟨rfl, fun _ h => List.mem_singleton.1 h⟩) he
  have hpath := hf.forward_along hq ht
  have ha : f.isReachable a = true := by
    refine hf.isReachable_iff.2 ?_
    cases hq with
    | root => exact .refl
    | step h hb hn => exact (h.bypasses hn).2.reaches.tail hb
  refine h a t ⟨ha, hs, by simpa using hd⟩ hpath

theorem Rooted.reducible_iff (hf : f.Rooted) : f.Reducible ↔ ∀ b, ¬ TransGen f.Onward b b := by
  constructor
  · intro hr b hb
    have drops {a b : BlockId} (h : TransGen f.Onward a b) : f.rank b < f.rank a := by
      induction h with
      | single h => exact hf.rank_lt hr (hf.onward_iff.1 h)
      | tail _ h ih => exact Nat.lt_trans (hf.rank_lt hr (hf.onward_iff.1 h)) ih
    exact Nat.lt_irrefl _ (drops hb)
  · intro h
    refine hf.reducible_of_acyclic fun a b hab hba => h a ?_
    refine .head' (hf.onward_iff.2 hab) (ReflTransGen.mono (fun _ _ h => hf.onward_iff.2 h) _ _ hba)

theorem onward_congr {f' : Flow} (h : ∀ a b, b ∈ f'.successors a ↔ b ∈ f.successors a) {a b : BlockId} :
    f'.Onward a b ↔ f.Onward a b := by
  have hsteps : (fun x y => y ∈ f'.graph.succ x ∧ y ≠ b) = fun x y => y ∈ f.graph.succ x ∧ y ≠ b := by
    funext x y
    exact propext (and_congr_left' (h x y))
  rw [Onward, Onward, h, Digraph.Bypasses, Digraph.Bypasses, Digraph.ReachesIn, Digraph.ReachesIn, hsteps]

theorem Rooted.reducible_congr (hf : f.Rooted) {f' : Flow} (hsize : f'.size = f.size)
    (h : ∀ a b, b ∈ f'.successors a ↔ b ∈ f.successors a) : f'.Reducible ↔ f.Reducible := by
  have hf' : f'.Rooted := by
    refine ⟨fun a b hb => ?_, Nat.lt_of_lt_of_eq hf.root_lt hsize.symm⟩
    exact Nat.lt_of_lt_of_eq (hf.inRange a b ((h a b).1 hb)) hsize.symm
  have honward : f'.Onward = f.Onward := by
    funext a b
    exact propext (onward_congr h)
  rw [hf'.reducible_iff, hf.reducible_iff, honward]

end Flow

namespace Proto

variable {p : Proto}

/-- The walk meets no edge into a cycle from the side exactly if the edges onward close no cycle, in whatever
order it takes the successors. -/
theorem sideEntry?_eq_none_iff (hp : p.violation? = none) :
    let f := Flow.of p
    ( f.sideEntry? f.dominance = none ↔ ∀ b, ¬ TransGen f.Onward b b) ∧
      ∀ f' : Flow, f'.size = f.size → (∀ a b, b ∈ f'.successors a ↔ b ∈ f.successors a) →
        ( f'.sideEntry? f'.dominance = none ↔ f.sideEntry? f.dominance = none) := by
  have hf := (wellShaped_of_violation hp).rooted
  exact ⟨hf.reducible_iff, fun _ hsize h => hf.reducible_congr hsize h⟩

def sideways : Proto :=
  { id := 0
    blocks := [
      ⟨0, 0, 0, [], .branch (.global "a") 1 2⟩,
      ⟨1, 1, 1, [.call (.global "f") [] 0], .always 0⟩,
      ⟨2, 2, 2, [], .branch (.global "b") 3 4⟩,
      ⟨3, 3, 3, [.call (.global "g") [] 0], .always 4⟩,
      ⟨4, 4, 4, [], .branch (.global "c") 3 5⟩,
      ⟨5, 5, 5, [.ret [] 0], .leave⟩] }

def sidewaysMirrored : Flow := .ofDigraph ⟨[[2, 1], [0], [4, 3], [4], [5, 3], []]⟩

theorem sideEntry?_eq_none_iff_sideways : sideways.violation? = none ∧
    (∃ b, TransGen (Flow.of sideways).Onward b b) ∧
    Flow.sideEntry? sidewaysMirrored sidewaysMirrored.dominance ≠ none := by
  have hviolation : sideways.violation? = none := by cbv
  obtain ⟨hiff, horder⟩ := sideEntry?_eq_none_iff hviolation
  have hside : Flow.sideEntry? (.of sideways) (Flow.of sideways).dominance ≠ none := by
    have : (Flow.sideEntry? (.of sideways) (Flow.of sideways).dominance).isSome = true := by cbv
    exact Option.isSome_iff_ne_none.1 this
  refine ⟨hviolation, ?_, fun h => hside ((horder sidewaysMirrored (by cbv) ?_).1 h)⟩
  · simpa using mt hiff.2 hside
  · intro a b
    have hgraph : (Flow.of sideways).graph = ⟨[[1, 2], [0], [3, 4], [4], [3, 5], []]⟩ := by cbv
    simp only [Flow.successors, hgraph, sidewaysMirrored, Flow.ofDigraph, Digraph.succ]
    rcases a with _ | _ | _ | _ | _ | _ | a <;> simp [or_comm]

end Proto

end LuaLift
