import LuaLift.Proofs.Region.Restored
import LuaLift.Proofs.Renumber.Classify

namespace LuaLift

variable {π : Equiv.Perm Nat}

structure Frame.Renumbers (π : Equiv.Perm Nat) (F F' : Frame) : Prop where
  header : F'.header = π F.header
  follow : F'.follow = F.follow.map π
  closing : F'.closing = F.closing.map π
  owned : ∀ b, π b ∈ F'.owned ↔ b ∈ F.owned

theorem map_eq_some_iff_of_perm (π : Equiv.Perm Nat) {o : Option Nat} {b : Nat} :
    o.map π = some (π b) ↔ o = some b := by
  cases o <;> simp

namespace Frame

variable {F F' : Frame} {fr fr' : List Frame}

theorem Renumbers.isEdge (h : F.Renumbers π F') (b : BlockId) : F'.isEdge (π b) = F.isEdge b := by
  have hfollow : (F.follow.map π == some (π b)) = (F.follow == some b) := by
    rw [Bool.eq_iff_iff, beq_iff_eq, beq_iff_eq, map_eq_some_iff_of_perm]
  rw [Frame.isEdge, Frame.isEdge, h.header, h.follow, hfollow]
  simp [beq_eq_decide]

theorem find?_isEdge (h : List.Forall₂ (Renumbers π) fr fr') (b : BlockId) :
    (fr'.find? (·.isEdge (π b))).map (·.header) = (fr.find? (·.isEdge b)).map fun o => π o.header := by
  induction h with
  | nil => rfl
  | @cons F F' fr fr' hF _ ih =>
    rw [List.find?_cons, List.find?_cons, hF.isEdge]
    cases F.isEdge b with
    | true => exact congrArg some hF.header
    | false => exact ih

theorem arrive_renumber (h : List.Forall₂ (Renumbers π) fr fr') (b : BlockId) : arrive (π b) fr' =
    match arrive b fr with
    | .crossing c => .crossing (π c)
    | a => a := by
  cases h with
  | nil => rfl
  | @cons F F' outer outer' hF houter =>
    have hfind := find?_isEdge (List.rel_reverse houter) b
    simp only [arrive, hF.header, hF.follow, π.injective.eq_iff, map_eq_some_iff_of_perm]
    split
    · rfl
    · split
      · rfl
      · cases ho : outer.reverse.find? (·.isEdge b) with
        | none =>
          rw [ho, Option.map_none, Option.map_eq_none_iff] at hfind
          rw [hfind]
        | some o =>
          rw [ho, Option.map_some, Option.map_eq_some_iff] at hfind
          obtain ⟨o', ho', hh⟩ := hfind
          simp only [ho', hh]

end Frame

namespace LoopShape

@[simp] theorem follow?_renumber (s : LoopShape) : (s.renumber π).follow? = s.follow?.map π := by
  cases s <;> rfl

theorem headed?_renumber (s : LoopShape) :
    (s.renumber π).headed? = s.headed?.map fun e => (e.1, π e.2) := by
  cases s <;> rfl

end LoopShape

def Task.renumber (π : Equiv.Perm Nat) : Task → Task
  | region stop current => region (stop.map π) (current.map π)
  | place stop b => place (stop.map π) (π b)
  | loop l => loop (l.renumber π)

namespace Plan

theorem exists_builds_of_build {pl : Plan} (hf : pl.flow.Rooted) {body : Body} (h : pl.build = .ok body) :
    ∃ placed, pl.Builds [] (.region none (some 0)) body placed ∧ (placed.map Prod.fst).Nodup ∧
      (∀ b ∈ placed.map Prod.fst, b < pl.flow.size) ∧ ∀ b ∈ pl.flow.order, b ∈ placed.map Prod.fst := by
  unfold build at h
  split at h
  · cases h
  · next body' left hle hr =>
    split at h
    · cases h
    · next hleft =>
      cases h
      obtain ⟨placed, hb, hperm⟩ := region_derives hr
      refine ⟨placed, hb, (List.nodup_append.1 (hperm.nodup_iff.2 List.nodup_range)).1, fun b hb => ?_, fun b hb => ?_⟩
      · exact List.mem_range.1 (hperm.mem_iff.1 (List.mem_append_left _ hb))
      · have hlt : b < pl.flow.size := hf.lt_size (Flow.mem_order.1 hb)
        have hmem := List.mem_append.1 (hperm.mem_iff.2 (List.mem_range.2 hlt))
        apply hmem.resolve_right
        intro hbl
        have := List.find?_eq_none.1 hleft b hb
        exact this (List.contains_iff_mem.2 hbl)

structure Renumbers (π : Equiv.Perm Nat) (pl pl' : Plan) : Prop where
  proto : pl.proto.Renumbers π pl'.proto
  flow : pl.flow.Renumbers π pl'.flow
  merges : ∀ b, (pl'.merges[π b]?).join = ((pl.merges[b]?).join).map π
  loopAt : ∀ b, pl'.loopAt? (π b) = (pl.loopAt? b).map (.renumber π)

namespace Renumbers

variable {pl pl' : Plan} (h : pl.Renumbers π pl') {fr fr' : List Frame}
include h

theorem reachFrom (b : BlockId) : pl'.reachFrom (π b) = (pl.reachFrom b).map π :=
  (h.flow.graph.walkIn h.flow.graph.range_perm [b]).1

theorem frame (l : ShapedLoop) : (pl.frame l).Renumbers π (pl'.frame (l.renumber π)) where
  header := rfl
  follow := l.shape.follow?_renumber
  closing := by
    simp only [Plan.frame, ShapedLoop.renumber]
    cases l.shape <;> rfl
  owned b := by
    simp only [Plan.frame, ShapedLoop.renumber, LoopShape.follow?_renumber, List.mem_append, List.mem_mergeSort,
      List.mem_map_of_injective π.injective]
    apply or_congr_right
    cases l.shape.follow? with
    | none => simp
    | some w =>
      simp only [Option.map_some, h.reachFrom, List.mem_filter, contains_map,
        List.mem_map_of_injective π.injective, π.injective.ne_iff]

theorem mergePoint? (hfr : List.Forall₂ (Frame.Renumbers π) fr fr') (b : BlockId) :
    pl'.mergePoint? fr' (π b) = (pl.mergePoint? fr b).map π := by
  rw [Plan.mergePoint?, Plan.mergePoint?, h.merges]
  cases (pl.merges[b]?).join with
  | none => rfl
  | some m =>
    cases hfr with
    | nil => rfl
    | @cons F F' _ _ hF _ =>
      have howned : F'.owned.contains (π m) = F.owned.contains m := by
        rw [Bool.eq_iff_iff, List.contains_iff_mem, List.contains_iff_mem, hF.owned]
      simp only [Option.map_some, Option.filter, howned]
      split <;> rfl

theorem untilTest? (header latch : BlockId) : pl'.untilTest? (π header) (π latch) = pl.untilTest? header latch := by
  rw [Plan.untilTest?, Plan.untilTest?, h.proto.jump]
  cases pl.proto.jump latch with
  | branch c b e => simp only [Jump.map, π.injective.eq_iff]
  | _ => rfl

theorem whole? (l : ShapedLoop) : pl'.whole? (l.renumber π) = pl.whole? l := by
  obtain ⟨header, body, shape⟩ := l
  cases shape with
  | posttest latch follow =>
    simp only [Plan.whole?, ShapedLoop.renumber, LoopShape.renumber]
    rw [h.untilTest?]
  | _ => rfl

omit h in
theorem closing? (hfr : List.Forall₂ (Frame.Renumbers π) fr fr') : closing? fr' = (closing? fr).map π := by
  cases hfr with
  | nil => rfl
  | cons hF _ => exact hF.closing

theorem loopAt_self {l : ShapedLoop} (hl : pl.loopAt? l.header = some l) :
    pl'.loopAt? (l.renumber π).header = some (l.renumber π) := by
  have := h.loopAt l.header
  rwa [hl] at this

theorem lays {task : Task} {body : Body} {placed : Placed} (hb : pl.Builds fr task body placed)
    (hfr : List.Forall₂ (Frame.Renumbers π) fr fr') :
    pl'.Lays fr' (task.renumber π) body ((placed.map Prod.fst).map π) := by
  have stays {stop : Option BlockId} {b : BlockId} (hs : stop ≠ some b) : stop.map π ≠ some (π b) :=
    mt (map_eq_some_iff_of_perm π).1 hs
  have arrives {fr fr' : List Frame} (hfr : List.Forall₂ (Frame.Renumbers π) fr fr') {b : BlockId} {a : Arrival}
      (ha : Frame.arrive b fr = a) (hc : ∀ c, a ≠ .crossing c) : Frame.arrive (π b) fr' = a := by
    rw [Frame.arrive_renumber hfr, ha]
    cases a with
    | crossing c => exact absurd rfl (hc c)
    | _ => rfl
  have open' {fr fr' : List Frame} (hfr : List.Forall₂ (Frame.Renumbers π) fr fr') {b : BlockId}
      (hc : Plan.closing? fr ≠ some b) : Plan.closing? fr' ≠ some (π b) := by
    rw [closing? hfr]
    exact stays hc
  have stmts (b : BlockId) : (pl.proto.body b).map Node.stmt = (pl'.proto.body (π b)).map .stmt := by
    rw [h.proto.body]
  induction hb generalizing fr' with
  | absent => exact ⟨[], rfl, .absent⟩
  | stopped => exact ⟨[], rfl, .stopped⟩
  | header hs ha => exact ⟨[], rfl, .header (stays hs) (arrives hfr ha (by simp))⟩
  | follow hs ha => exact ⟨[], rfl, .follow (stays hs) (arrives hfr ha (by simp))⟩
  | @loop fr stop l node rest placed later hs ha hn hr ihn ihr =>
    rw [List.map_append, List.map_append]
    apply Lays.loop (stays hs) (arrives hfr ha (by simp)) (ihn hfr)
    have := ihr hfr
    rwa [Task.renumber, ← LoopShape.follow?_renumber] at this
  | @block fr stop b body placed hs ha hl hb ih =>
    obtain ⟨placed', hplaced, hb'⟩ := ih hfr
    refine ⟨placed', hplaced, .block (stays hs) (arrives hfr ha (by simp)) ?_ hb'⟩
    rw [h.loopAt, hl, Option.map_none]
  | @closing fr stop b hc =>
    rw [stmts]
    refine ⟨[(π b, fr')], rfl, .closing ?_⟩
    rw [Renumbers.closing? hfr, hc, Option.map_some]
  | @leave fr stop b hc hj =>
    rw [stmts]
    refine ⟨[(π b, fr')], rfl, .leave (open' hfr hc) ?_⟩
    rw [h.proto.jump, hj, Jump.map]
  | @always fr stop b t rest placed hc hj hr ih =>
    rw [stmts]
    apply Lays.always (open' hfr hc)
    · rw [h.proto.jump, hj, Jump.map]
    · exact ih hfr
  | @branch fr stop b t e c onTrue onFalse rest first second placed hc hj ht he hr iht ihe ihr =>
    rw [stmts]
    simp only [List.map_cons, List.map_append]
    apply Lays.branch (open' hfr hc)
    · rw [h.proto.jump, hj, Jump.map]
    · exact h.mergePoint? hfr b
    · exact iht hfr
    · exact ihe hfr
    · exact ihr hfr
  | @headed fr l wrap entry body placed hl hh hb ih =>
    apply Lays.headed (h.loopAt_self hl)
    · rw [ShapedLoop.renumber, LoopShape.headed?_renumber, hh]
      rfl
    · exact ih (.cons (h.frame l) hfr)
  | @whole fr l wrap body placed hl hw hb ih =>
    apply Lays.whole (h.loopAt_self hl)
    · rwa [h.whole?]
    · exact ih (.cons (h.frame l) hfr)

theorem build (hf : pl.flow.Rooted) {body : Body} (hb : pl.build = .ok body) : pl'.build = .ok body := by
  obtain ⟨placed, hb, hnodup, hin, hall⟩ := exists_builds_of_build hf hb
  have hlays := h.lays hb .nil
  rw [Task.renumber, Option.map_none, Option.map_some, h.flow.zero] at hlays
  apply hlays.build_eq_ok (hnodup.map π.injective)
  · intro x hx
    obtain ⟨b, hb, rfl⟩ := List.mem_map.1 hx
    exact h.flow.lt_iff.2 (hin b hb)
  · intro x hx
    rw [h.flow.order] at hx
    obtain ⟨b, hb, rfl⟩ := List.mem_map.1 hx
    exact List.mem_map_of_mem (hall b hb)

end Renumbers

end Plan

end LuaLift
