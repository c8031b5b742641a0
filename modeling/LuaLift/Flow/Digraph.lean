namespace LuaLift

structure Digraph where
  next : List (List Nat)
  deriving Repr, DecidableEq

structure Walk where
  postorder : List Nat
  retreating : List (Nat × Nat)
  unseen : List Nat
  deriving Repr, DecidableEq

namespace Digraph

def size (g : Digraph) : Nat := g.next.length

def succ (g : Digraph) (b : Nat) : List Nat := g.next[b]?.getD []

theorem length_erase_lt {t : Nat} {l : List Nat} (h : t ∈ l) : (l.erase t).length < l.length := by
  have := List.length_pos_of_mem h
  rw [List.length_erase_of_mem h]
  omega

def walk (g : Digraph) (path unseen : List Nat) :
    List Nat → { w : Walk // w.unseen.length ≤ unseen.length }
  | [] => ⟨⟨[], [], unseen⟩, Nat.le_refl _⟩
  | t :: ts =>
    if t ∈ path then
      let ⟨w, h⟩ := g.walk path unseen ts
      ⟨{ w with retreating := (path.take 1).map (·, t) ++ w.retreating }, h⟩
    else if ht : t ∈ unseen then
      have hlt := length_erase_lt ht
      let ⟨v, hv⟩ := g.walk (t :: path) (unseen.erase t) (g.succ t)
      let ⟨w, hw⟩ := g.walk path v.unseen ts
      ⟨⟨v.postorder ++ t :: w.postorder, v.retreating ++ w.retreating, w.unseen⟩, by
        have : w.unseen.length ≤ unseen.length := by omega
        exact this⟩
    else g.walk path unseen ts
termination_by ts => (unseen.length, ts.length)
decreasing_by
  all_goals simp_wf
  all_goals first
    | (apply Prod.Lex.right; simp)
    | (apply Prod.Lex.left; omega)

def walkIn (g : Digraph) (allowed roots : List Nat) : Walk := (g.walk [] allowed roots).val

def walkFrom (g : Digraph) (root : Nat) : Walk := g.walkIn (List.range g.size) [root]

def reach (g : Digraph) (root : Nat) : List Nat := (g.walkFrom root).postorder

def reachAvoiding (g : Digraph) (root d : Nat) : List Nat :=
  (g.walkIn ((List.range g.size).erase d) [root]).postorder

end Digraph

end LuaLift
