import LuaLift.Loops.Shape
import LuaLift.Proofs.Flow.Reducible
import LuaLift.Proofs.Renumber.Simplify
import Mathlib.Data.List.Sort

namespace LuaLift

variable {π : Equiv.Perm Nat}

def NaturalLoop.renumber (π : Equiv.Perm Nat) (l : NaturalLoop) : NaturalLoop :=
  ⟨π l.header, l.latches.map π, (l.body.map π).mergeSort⟩

def ExitTest.renumber (π : Equiv.Perm Nat) (e : ExitTest) : ExitTest := ⟨π e.inside, π e.outside, e.staysOnTrue⟩

def LoopShape.renumber (π : Equiv.Perm Nat) : LoopShape → LoopShape
  | pretest c entry follow => pretest c (π entry) (π follow)
  | posttest latch follow => posttest (π latch) (π follow)
  | numeric v start stop step entry follow => numeric v start stop step (π entry) (π follow)
  | generic vs iterators entry follow => generic vs iterators (π entry) (π follow)
  | endless follow => endless (follow.map π)

def ShapedLoop.renumber (π : Equiv.Perm Nat) (l : ShapedLoop) : ShapedLoop :=
  ⟨π l.header, (l.body.map π).mergeSort, l.shape.renumber π⟩

def Note.renumber (π : Equiv.Perm Nat) (n : Note) : Note := { n with header := π n.header }

namespace Flow.Renumbers

variable {f f' : Flow} (hr : f.Renumbers π f')
include hr

theorem loopBody (header : BlockId) (latches : List BlockId) :
    f'.loopBody (π header) (latches.map π) = ((f.loopBody header latches).map π).mergeSort := by
  have hinside := (hr.predecessorGraph.walkIn (hr.graph.range_erase_perm header) latches).1
  have hperm : (f'.loopBody (π header) (latches.map π)).Perm ((f.loopBody header latches).map π) := by
    apply (List.Perm.filter _ hr.graph.range_perm).trans
    rw [filter_map_congr]
    · exact .refl _
    · intro b _
      rw [← Flow.size, ← Flow.size] at hinside
      rw [hinside, contains_map]
      simp
  have hsorted : (f'.loopBody (π header) (latches.map π)).Pairwise (· ≤ ·) :=
    (List.pairwise_lt_range.filter _).imp Nat.le_of_lt
  exact (hperm.trans (List.mergeSort_perm _ _).symm).eq_of_pairwise (fun _ _ _ _ => Nat.le_antisymm) hsorted
    (List.pairwise_mergeSort' (· ≤ ·) _)

theorem loopAt (header : BlockId) : f'.loopAt (f'.backEdges f'.dominance) (π header) =
    (f.loopAt (f.backEdges f.dominance) header).renumber π := by
  have hlatches : ((f'.backEdges f'.dominance).filter (·.2 = π header)).map (·.1) =
      (((f.backEdges f.dominance).filter (·.2 = header)).map (·.1)).map π := by
    have hfilter : ((f.backEdges f.dominance).map (Prod.map π π)).filter (·.2 = π header) =
        ((f.backEdges f.dominance).filter (·.2 = header)).map (Prod.map π π) :=
      filter_map_congr fun e _ => by simp
    rw [hr.backEdges, hfilter]
    simp [Function.comp_def]
  simp only [Flow.loopAt, NaturalLoop.renumber, hlatches, hr.loopBody]

theorem loops : f'.loops f'.dominance = (f.loops f.dominance).map (.renumber π) := by
  have hheaders : f'.order.filter (fun h => (f'.backEdges f'.dominance).any (·.2 = h)) =
      (f.order.filter fun h => (f.backEdges f.dominance).any (·.2 = h)).map π := by
    rw [hr.order]
    apply filter_map_congr
    intro h _
    simp [hr.backEdges, Function.comp_def]
  have hmap : ((f.order.filter fun h => (f.backEdges f.dominance).any (·.2 = h)).map π).map
      (f'.loopAt (f'.backEdges f'.dominance)) =
      ((f.order.filter fun h => (f.backEdges f.dominance).any (·.2 = h)).map
        (f.loopAt (f.backEdges f.dominance))).map (.renumber π) := by
    simp [hr.loopAt]
  simp only [Flow.loops, hheaders, hmap]
  rw [List.map_mergeSort]
  intro a _ b _
  simp [NaturalLoop.renumber]

end Flow.Renumbers

namespace NaturalLoop

variable (l : NaturalLoop)

@[simp] theorem contains_renumber (b : BlockId) : (l.renumber π).contains (π b) = l.contains b := by
  simp [contains, renumber]

@[simp] theorem singleLatch?_renumber : (l.renumber π).singleLatch? = l.singleLatch?.map π := by
  obtain ⟨header, latches, body⟩ := l
  rcases latches with _ | ⟨a, _ | ⟨b, rest⟩⟩ <;> rfl

theorem followKey_injective {p : Proto} {f : Flow} {b c : BlockId} (hb : f.isReachable b = true)
    (hc : f.isReachable c = true) (h : followKey p f b = followKey p f c) : b = c := by
  obtain ⟨i, hi⟩ := Flow.exists_position? hb
  obtain ⟨j, hj⟩ := Flow.exists_position? hc
  have hib := Flow.position?_eq_some_iff.1 hi
  have hjc := Flow.position?_eq_some_iff.1 hj
  have hlt {k : Nat} {x : BlockId} (hk : f.order[k]? = some x) : k < f.size :=
    Nat.lt_of_lt_of_le (List.getElem?_eq_some_iff.1 hk).1 f.length_order_le
  have hib' := hlt hib
  have hjc' := hlt hjc
  have hij : i = j := by
    simp only [followKey, hi, hj, Option.getD_some] at h
    split at h <;> split at h <;> omega
  subst hij
  exact Option.some.inj (hib.symm.trans hjc)

def closer (key : BlockId → Nat) (best : Option BlockId) (e : BlockId × BlockId) : Option BlockId :=
  match best with
  | some b => if key e.2 < key b then some e.2 else some b
  | none => some e.2

theorem exitTarget?_eq (p : Proto) (f : Flow) :
    l.exitTarget? p f = (l.exits f).foldl (closer (followKey p f)) none := rfl

theorem closer_comm {key : BlockId → Nat} {e e' : BlockId × BlockId} (h : key e.2 = key e'.2 → e.2 = e'.2)
    (best : Option BlockId) : closer key (closer key best e) e' = closer key (closer key best e') e := by
  cases best with
  | none => grind [closer]
  | some b => grind [closer]

variable {l} in
theorem isReachable_exit {f : Flow} (hf : f.Rooted) (hl : l ∈ f.loops f.dominance) {e : BlockId × BlockId}
    (he : e ∈ l.exits f) : f.isReachable e.2 = true := by
  simp only [exits, List.mem_flatMap, List.mem_map, List.mem_filter] at he
  obtain ⟨b, hb, c, ⟨hc, -⟩, rfl⟩ := he
  exact hf.isReachable_successor ((Flow.isLoop_of_mem hl).reachable hf hb) hc

end NaturalLoop

namespace NaturalLoop

variable (l : NaturalLoop)

@[simp] theorem exitTest?_renumber (j : Jump) :
    (l.renumber π).exitTest? (j.map π) = (l.exitTest? j).map (.renumber π) := by
  cases j with
  | branch c a b =>
    simp only [exitTest?, Jump.map, contains_renumber]
    cases l.contains a <;> cases l.contains b <;> rfl
  | _ => rfl

variable {p q : Proto} {f f' : Flow} (hr : p.Renumbers π q) (hf : f.Renumbers π f')

section Shape

include hr

theorem pretest?_renumber : (l.renumber π).pretest? q = (l.pretest? p).map (.renumber π) := by
  have hbody : q.body (l.renumber π).header = p.body l.header := hr.body _
  have hjump : q.jump (l.renumber π).header = (p.jump l.header).map π := hr.jump _
  simp only [pretest?, hbody, hjump, exitTest?_renumber, Jump.condition?_map]
  cases (p.body l.header).isEmpty with
  | false => rfl
  | true =>
    cases l.exitTest? (p.jump l.header) with
    | none => rfl
    | some e => cases (p.jump l.header).condition? <;> rfl

theorem posttest?_renumber : (l.renumber π).posttest? q = (l.posttest? p).map (.renumber π) := by
  simp only [posttest?, singleLatch?_renumber]
  cases l.singleLatch? with
  | none => rfl
  | some latch =>
    simp only [Option.map_some, Option.bind_eq_bind, Option.bind_some, hr.jump, exitTest?_renumber]
    cases l.exitTest? (p.jump latch) <;> rfl

include hf

omit hr in
theorem exits_renumber : ((l.renumber π).exits f').Perm ((l.exits f).map (Prod.map π π)) := by
  simp only [exits, renumber]
  apply ((List.mergeSort_perm _ _).flatMap_right _).trans
  rw [List.flatMap_map, List.map_flatMap]
  have heq (b : BlockId) : ((f'.successors (π b)).filter fun c => !(l.renumber π).contains c).map (π b, ·) =
      (((f.successors b).filter fun c => !l.contains c).map (b, ·)).map (Prod.map π π) := by
    have hfilter : ((f.successors b).map π).filter (fun c => !(l.renumber π).contains c) =
        ((f.successors b).filter fun c => !l.contains c).map π :=
      filter_map_congr fun c _ => by rw [contains_renumber]
    rw [hf.successors, hfilter]
    simp [Function.comp_def]
  simp only [renumber] at heq
  simp only [heq]
  exact .refl _

theorem preheader?_renumber : (l.renumber π).preheader? q f' = (l.preheader? p f).map π := by
  have houter : (f'.predecessors (π l.header)).filter (fun b => !(l.renumber π).contains b) =
      ((f.predecessors l.header).filter fun b => !l.contains b).map π := by
    rw [hf.predecessors]
    exact filter_map_congr fun b _ => by rw [contains_renumber]
  simp only [preheader?]
  rw [show (l.renumber π).header = π l.header from rfl, houter]
  rcases (f.predecessors l.header).filter fun b => !l.contains b with _ | ⟨b, _ | ⟨c, rest⟩⟩
  · rfl
  · simp only [List.map_cons, List.map_nil, hr.jump]
    cases p.jump b with
    | always t =>
      simp only [Jump.map, π.injective.eq_iff]
      split <;> rfl
    | _ => rfl
  · rfl

theorem followKey_renumber (b : BlockId) : followKey q f' (π b) = followKey p f b := by
  simp only [followKey, hf.position?, hr.jump, hf.size]
  cases p.jump b <;> rfl

variable {l} (hrooted : f.Rooted) (hl : l ∈ f.loops f.dominance)
include hrooted hl

theorem exitTarget?_renumber : (l.renumber π).exitTarget? q f' = (l.exitTarget? p f).map π := by
  have hkey : ∀ x, followKey q f' (π x) = followKey p f x := followKey_renumber hr hf
  have hstep (best : Option BlockId) (e : BlockId × BlockId) :
      closer (followKey q f') (best.map π) (Prod.map π π e) = (closer (followKey p f) best e).map π := by
    cases best with
    | none => rfl
    | some b =>
      simp only [closer, Option.map_some, Prod.map_snd, hkey]
      split <;> rfl
  rw [exitTarget?_eq, exitTarget?_eq]
  calc ((l.renumber π).exits f').foldl (closer (followKey q f')) none
      = ((l.exits f).map (Prod.map π π)).foldl (closer (followKey q f')) none := by
        apply ((exits_renumber l hf).symm.foldl_eq' _ _).symm
        intro e he e' he' best
        obtain ⟨e, hm, rfl⟩ := List.mem_map.1 he
        obtain ⟨e', hm', rfl⟩ := List.mem_map.1 he'
        apply closer_comm
        intro h
        simp only [Prod.map_snd, hkey] at h ⊢
        rw [followKey_injective (isReachable_exit hrooted hl hm) (isReachable_exit hrooted hl hm') h]
    _ = ((l.exits f).foldl (closer (followKey p f)) none).map π := by
        rw [List.foldl_map]
        exact @List.foldl_hom _ _ _ (Option.map π) (closer (followKey p f))
          (fun b e => closer (followKey q f') b (Prod.map π π e)) (l.exits f) none hstep

theorem plainShape_renumber : (l.renumber π).plainShape q f' = (l.plainShape p f).renumber π := by
  rw [plainShape, plainShape, pretest?_renumber l hr, posttest?_renumber l hr, exitTarget?_renumber hr hf hrooted hl]
  cases l.pretest? p with
  | some shape => rfl
  | none => cases l.posttest? p <;> rfl

end Shape

end NaturalLoop

end LuaLift
