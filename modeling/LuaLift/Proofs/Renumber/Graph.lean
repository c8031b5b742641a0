import LuaLift.Proofs.Flow.MergePoints
import Mathlib.Data.List.Nodup
import Mathlib.Data.Option.Basic
import Mathlib.Logic.Equiv.Defs

namespace LuaLift

theorem contains_map (π : Equiv.Perm Nat) (l : List Nat) (b : Nat) :
    (l.map π).contains (π b) = l.contains b := by
  simp [List.contains_eq_mem]

theorem filter_map_congr {α β : Type} {f : α → β} {P : β → Bool} {Q : α → Bool} {l : List α}
    (h : ∀ a ∈ l, P (f a) = Q a) : (l.map f).filter P = (l.filter Q).map f := by
  rw [List.filter_map]
  exact congrArg (List.map f) (List.filter_congr h)

namespace Digraph

structure Renumbers (π : Equiv.Perm Nat) (g h : Digraph) : Prop where
  size : h.size = g.size
  fixes : ∀ b, g.size ≤ b → π b = b
  succ : ∀ b, h.succ (π b) = (g.succ b).map π

variable {π : Equiv.Perm Nat} {g h : Digraph}

theorem Walks.val_eq {path unseen ts : List Nat} {w : Walk} (hw : g.Walks path unseen ts w) :
    (g.walk path unseen ts).val = w := by
  induction hw with
  | nil => rw [walk]
  | back ht hw ih =>
    rw [walk, if_pos ht]
    simp only [ih]
  | @enter path unseen ts t v w ht hu hv hw ihv ihw =>
    rw [walk, if_neg ht, dif_pos hu]
    generalize g.walk (t :: path) (unseen.erase t) (g.succ t) = x at ihv
    obtain ⟨x, hx⟩ := x
    cases ihv
    simp only [ihw]
  | seen ht hu hw ih => rw [walk, if_neg ht, dif_neg hu, ih]

namespace Renumbers

variable (hr : g.Renumbers π h)
include hr

theorem lt_iff {b : Nat} : π b < h.size ↔ b < g.size := by
  rw [hr.size]
  constructor
  · intro hb
    refine Nat.lt_of_not_le fun hle => ?_
    rw [hr.fixes b hle] at hb
    omega
  · intro hb
    refine Nat.lt_of_not_le fun hle => ?_
    have := π.injective (hr.fixes (π b) hle)
    omega

theorem range_perm : (List.range h.size).Perm ((List.range g.size).map π) := by
  refine (List.perm_ext_iff_of_nodup List.nodup_range (List.nodup_range.map π.injective)).2 fun b => ?_
  obtain ⟨a, rfl⟩ := π.surjective b
  rw [List.mem_map_of_injective π.injective, List.mem_range, List.mem_range, hr.lt_iff]

theorem range_erase_perm (b : Nat) :
    ((List.range h.size).erase (π b)).Perm (((List.range g.size).erase b).map π) := by
  rw [List.map_erase π.injective]
  exact hr.range_perm.erase _

theorem walks {path unseen ts unseen' : List Nat} {w : Walk} (hw : g.Walks path unseen ts w)
    (hu : unseen'.Perm (unseen.map π)) : ∃ u, u.Perm (w.unseen.map π) ∧
      h.Walks (path.map π) unseen' (ts.map π)
        ⟨w.postorder.map π, w.retreating.map (Prod.map π π), u⟩ := by
  induction hw generalizing unseen' with
  | nil path unseen => exact ⟨unseen', hu, .nil _ _⟩
  | @back path unseen ts t w ht hw ih =>
    obtain ⟨u, hp, hw⟩ := ih hu
    refine ⟨u, hp, ?_⟩
    have := Walks.back (List.mem_map_of_mem (f := π) ht) hw
    simpa [List.map_take, Function.comp_def] using this
  | @enter path unseen ts t v w ht hm hv hw ihv ihw =>
    have ht' : π t ∉ path.map π := by rwa [List.mem_map_of_injective π.injective]
    have hm' : π t ∈ unseen' := hu.mem_iff.2 (List.mem_map_of_mem hm)
    have he : (unseen'.erase (π t)).Perm ((unseen.erase t).map π) := by
      rw [List.map_erase π.injective]
      exact hu.erase _
    obtain ⟨u, hp, hv⟩ := ihv he
    obtain ⟨x, hx, hw⟩ := ihw hp
    rw [← hr.succ] at hv
    refine ⟨x, hx, ?_⟩
    simpa using Walks.enter ht' hm' hv hw
  | @seen path unseen ts t w ht hm hw ih =>
    have ht' : π t ∉ path.map π := by rwa [List.mem_map_of_injective π.injective]
    have hm' : π t ∉ unseen' := by rwa [hu.mem_iff, List.mem_map_of_injective π.injective]
    obtain ⟨u, hp, hw⟩ := ih hu
    exact ⟨u, hp, .seen ht' hm' hw⟩

theorem walkIn {allowed allowed' : List Nat} (ha : allowed'.Perm (allowed.map π)) (roots : List Nat) :
    (h.walkIn allowed' (roots.map π)).postorder = (g.walkIn allowed roots).postorder.map π ∧
      (h.walkIn allowed' (roots.map π)).retreating =
        (g.walkIn allowed roots).retreating.map (Prod.map π π) := by
  obtain ⟨u, -, hw⟩ := hr.walks (g.walks [] allowed roots) ha
  have := hw.val_eq
  simp only [List.map_nil] at this
  simp only [Digraph.walkIn, this, and_self]

theorem walkFrom (root : Nat) :
    (h.walkFrom (π root)).postorder = (g.walkFrom root).postorder.map π ∧
      (h.walkFrom (π root)).retreating = (g.walkFrom root).retreating.map (Prod.map π π) :=
  hr.walkIn hr.range_perm [root]

theorem inRange (hg : g.InRange) : h.InRange := by
  intro a b hb
  obtain ⟨a, rfl⟩ := π.surjective a
  rw [hr.succ] at hb
  obtain ⟨c, hc, rfl⟩ := List.mem_map.1 hb
  exact hr.lt_iff.2 (hg a c hc)

theorem dominates (root d b : Nat) :
    (Dominance.of h (π root)).dominates (π d) (π b) = (Dominance.of g root).dominates d b := by
  have hreach : h.reach (π root) = (g.reach root).map π := (hr.walkFrom root).1
  have havoid : (Dominance.of h (π root)).avoiding[π d]? =
      ((Dominance.of g root).avoiding[d]?).map (List.map π) := by
    simp only [Dominance.of, List.getElem?_map]
    by_cases hd : d < g.size
    · rw [List.getElem?_range hd, List.getElem?_range (hr.lt_iff.2 hd)]
      exact congrArg some (hr.walkIn (hr.range_erase_perm d) [root]).1
    · have hd' : ¬ π d < h.size := by rwa [hr.lt_iff]
      simp [hd, hd']
  have hgetD (o : Option (List Nat)) :
      (o.map (List.map π)).getD ((g.reach root).map π) = (o.getD (g.reach root)).map π := by
    cases o <;> rfl
  rw [Dominance.dominates, Dominance.dominates, havoid]
  simp only [Dominance.of] at hgetD ⊢
  rw [hreach, hgetD, contains_map, contains_map]

theorem immediate? (hg : g.InRange) (root : Nat) (hroot : root < g.size) (b : Nat) :
    (Dominance.of h (π root)).immediate? (π b) = ((Dominance.of g root).immediate? b).map π := by
  refine Option.ext fun d => ?_
  obtain ⟨d, rfl⟩ := π.surjective d
  rw [Dominance.immediate?_eq_some_iff (hr.inRange hg) (hr.lt_iff.2 hroot)]
  refine Iff.trans ?_ (Option.mem_map_of_injective π.injective).symm
  rw [Option.mem_def, Dominance.immediate?_eq_some_iff hg hroot, π.surjective.forall]
  simp only [hr.dominates, π.injective.ne_iff]

end Renumbers

end Digraph

namespace Flow

structure Renumbers (π : Equiv.Perm Nat) (f f' : Flow) : Prop where
  graph : f.graph.Renumbers π f'.graph
  zero : π 0 = 0

variable {f : Flow}

theorem size_predecessorGraph (f : Flow) : f.predecessorGraph.size = f.size := by
  simp [predecessorGraph, Digraph.size]

namespace Renumbers

variable {π : Equiv.Perm Nat} {f' : Flow} (hr : f.Renumbers π f')
include hr

theorem size : f'.size = f.size := hr.graph.size

theorem apply_size : π f.size = f'.size := (hr.graph.fixes _ (Nat.le_refl _)).trans hr.size.symm

theorem lt_iff {b : BlockId} : π b < f'.size ↔ b < f.size := hr.graph.lt_iff

theorem rooted (hf : f.Rooted) : f'.Rooted :=
  ⟨hr.graph.inRange hf.inRange, Nat.lt_of_lt_of_eq hf.root_lt hr.size.symm⟩

theorem successors (b : BlockId) : f'.successors (π b) = (f.successors b).map π := hr.graph.succ b

theorem postorder : f'.walk.postorder = f.walk.postorder.map π := by
  have := (hr.graph.walkFrom 0).1
  rwa [hr.zero, ← f'.walk_eq, ← f.walk_eq] at this

theorem retreating : f'.walk.retreating = f.walk.retreating.map (Prod.map π π) := by
  have := (hr.graph.walkFrom 0).2
  rwa [hr.zero, ← f'.walk_eq, ← f.walk_eq] at this

theorem order : f'.order = f.order.map π := by
  rw [Flow.order, Flow.order, hr.postorder, List.map_reverse]

theorem isReachable (b : BlockId) : f'.isReachable (π b) = f.isReachable b := by
  rw [Flow.isReachable, Flow.isReachable, hr.postorder, contains_map]

theorem position? (b : BlockId) : f'.position? (π b) = f.position? b := by
  rw [Flow.position?, Flow.position?, hr.order]
  simp only [List.idxOf?, List.findIdx?_map, Function.comp_def]
  congr 1
  funext a
  simp [beq_eq_decide]

theorem predecessors (b : BlockId) : f'.predecessors (π b) = (f.predecessors b).map π := by
  rw [Flow.predecessors, Flow.predecessors, hr.order]
  exact filter_map_congr fun a _ => by rw [hr.successors, contains_map]

theorem dominates (d b : BlockId) :
    f'.dominance.dominates (π d) (π b) = f.dominance.dominates d b := by
  have := hr.graph.dominates 0 d b
  rwa [hr.zero] at this

theorem find?_retreating :
    f'.sideEntry? f'.dominance = Option.map (Prod.map π π) ( f.sideEntry? f.dominance) := by
  unfold Flow.sideEntry?
  rw [hr.retreating, List.find?_map]
  congr 2
  funext e
  simp [hr.dominates]

theorem backEdges :
    f'.backEdges f'.dominance = (f.backEdges f.dominance).map (Prod.map π π) := by
  rw [Flow.backEdges, Flow.backEdges, hr.order, List.flatMap_map, List.map_flatMap]
  congr 1
  funext a
  have hfilter : ((f.successors a).map π).filter (f'.dominance.dominates · (π a)) =
      ((f.successors a).filter (f.dominance.dominates · a)).map π :=
    filter_map_congr fun c _ => hr.dominates c a
  rw [hr.successors, hfilter]
  simp [Function.comp_def]

theorem forward (b : BlockId) :
    f'.forward f'.dominance (π b) = (f.forward f.dominance b).map π := by
  rw [Flow.forward, Flow.forward, hr.successors]
  exact filter_map_congr fun c _ => by rw [hr.dominates]

theorem predecessorGraph : f.predecessorGraph.Renumbers π f'.predecessorGraph where
  size := by rw [size_predecessorGraph, size_predecessorGraph, hr.size]
  fixes b hb := by
    rw [size_predecessorGraph] at hb
    exact hr.graph.fixes b hb
  succ b := by
    by_cases hb : b < f.size
    · rw [succ_predecessorGraph hb, succ_predecessorGraph (hr.lt_iff.2 hb), hr.predecessors]
    · have hb' : ¬ π b < f'.size := by rwa [hr.lt_iff]
      simp [Flow.predecessorGraph, Digraph.succ, hb, hb']

theorem reversed : (f.reversed f.dominance).Renumbers π (f'.reversed f'.dominance) where
  size := by rw [size_reversed, size_reversed, hr.size]
  fixes b hb := by
    rw [size_reversed] at hb
    exact hr.graph.fixes b (Nat.le_of_succ_le hb)
  succ b := by
    rcases Nat.lt_trichotomy b f.size with hb | rfl | hb
    · rw [succ_reversed hb, succ_reversed (hr.lt_iff.2 hb), hr.order]
      exact filter_map_congr fun a _ => by rw [hr.forward, contains_map]
    · rw [hr.apply_size, succ_reversed_size, succ_reversed_size, hr.order]
      exact filter_map_congr fun a _ => by simp [hr.forward, hr.successors]
    · have hb' : f'.size < π b := by
        rw [hr.graph.fixes b (Nat.le_of_lt hb), hr.size]
        exact hb
      rw [succ_reversed_of_size_lt hb, succ_reversed_of_size_lt hb', List.map_nil]

theorem mergePoints (hf : f.Rooted) (b : BlockId) :
    (f'.mergePoints f'.dominance)[π b]?.join = ((f.mergePoints f.dominance)[b]?.join).map π := by
  have himm := hr.reversed.immediate? hf.inRange_reversed f.size (by simp [size_reversed]) b
  rw [hr.apply_size] at himm
  simp only [Flow.mergePoints, List.getElem?_map]
  by_cases hb : b < f.size
  · rw [List.getElem?_range hb, List.getElem?_range (hr.lt_iff.2 hb)]
    simp only [Option.map_some, Option.join_some, hr.isReachable, himm]
    cases f.isReachable b with
    | false => rfl
    | true =>
      cases (Dominance.of (f.reversed f.dominance) f.size).immediate? b with
      | none => rfl
      | some c => by_cases hc : c = f.size <;> simp [Option.filter, hc, ← hr.apply_size]
  · have hb' : ¬ π b < f'.size := by rwa [hr.lt_iff]
    simp [hb, hb']

end Renumbers

end Flow

end LuaLift
