import LuaLift.Proofs.Slots.Dataflow

namespace LuaLift

def Block.writersOf (b : Block) (s : Slot) : List Stmt := (b.body.map Stmt.frame).filter (s ∈ ·.writtenSlots)

theorem Stmt.writtenSlots_frame (t : Stmt) : t.frame.writtenSlots = t.writtenSlots := by
  cases t with
  | assign a =>
    have hcell : Expr.cellOf? .slot ∘ Expr.targetFrame = Expr.cellOf? .slot := by
      funext e
      cases e <;> rfl
    exact List.filterMap_map.trans (congrArg (List.filterMap · a.targets) hcell)
  | _ => rfl

theorem Stmt.writtenSlots_of_singleSlot? {w : Stmt} {x : Slot} {e : Expr} (hw : w.singleSlot? = some (x, e)) :
    w.writtenSlots = [x] := by
  obtain ⟨d, l, rfl⟩ := exists_of_singleSlot? hw
  rfl

namespace Block

variable {guarded : Slot → Bool} {out : NatSet} {b c : Block} {s : Slot}

theorem Merges.writersOf (h : Merges guarded out b c) (hs : guarded s = true) : c.writersOf s = b.writersOf s := by
  have hother {w : Stmt} {x : Slot} {e : Expr} (hw : w.singleSlot? = some (x, e)) (hx : guarded x = false) :
      s ∉ w.frame.writtenSlots := by
    rw [Stmt.writtenSlots_frame, Stmt.writtenSlots_of_singleSlot? hw, List.mem_singleton]
    rintro rfl
    rw [hs] at hx
    cases hx
  cases h with
  | stmt before rest hbody hw hx =>
    simp [Block.writersOf, hbody, Stmt.frame_take, List.filter_cons, hother hw hx]
  | jump before hbody hw hx => simp [Block.writersOf, hbody, hother hw hx]

theorem writersOf_inline (b : Block) (hs : guarded s = true) : (b.inline guarded out).writersOf s = b.writersOf s :=
  inline_keeps (P := fun c => c.writersOf s = b.writersOf s) rfl fun h ih => (h.writersOf hs).trans ih

end Block

theorem Protected.contains_of_captured {p : Proto} {f : Flow} {b : Block} {s : Slot} (hb : b ∈ p.blocks)
    (hs : s ∈ (b.body.flatMap (·.operands)).flatMap (·.capturedSlots)) : (Protected.of p f).contains b.id s = true := by
  have hmem : (b.id, s) ∈ (Protected.of p f).pairs := by
    refine List.mem_append_left _ (List.mem_flatMap.2 ⟨b, hb, ?_⟩)
    exact List.mem_map_of_mem (List.mem_append_right _ hs)
  simp [contains, hmem]

namespace Proto

theorem inline_keeps_captured (p : Proto) (l : Liveness) {i : Nat} {b c : Block} {s : Slot}
    (hb : p.blocks[i]? = some b) (hc : (p.inline l (.of p (.of p))).1.blocks[i]? = some c)
    (hs : s ∈ (b.body.flatMap (·.operands)).flatMap (·.capturedSlots)) : c.writersOf s = b.writersOf s := by
  rw [blocks_inline, List.getElem?_map, hb, Option.map_some, Option.some.injEq] at hc
  subst hc
  split
  · exact b.writersOf_inline (Protected.contains_of_captured (List.mem_of_getElem? hb) hs)
  · rfl

/-! A closure of the block before does not keep a write, and neither does one in the test of the block. -/

example :
    let p : Proto :=
      { id := 0
        blocks := [
          ⟨0, 0, 0, [.store (.slot 0) (.global "a"), .call (.global "keep") [.closure 0 [.slot 0]] 0], .always 1⟩,
          ⟨1, 1, 1, [.store (.slot 0) (.global "b"), .call (.global "f") [.slot 0] 0], .leave⟩] }
    (p.inlined 4 (.of p (.of p))).toOption.map (·.1.blocks.map (·.body.length)) = some [2, 1] := by
  cbv

example :
    let p : Proto :=
      { id := 0
        blocks := [
          ⟨0, 0, 0, [], .always 1⟩,
          ⟨1, 1, 1, [.store (.slot 0) (.global "a"), .call (.global "f") [.slot 0] 0, .store (.slot 0) (.global "b")],
            .branch (.call (.global "keep") [.closure 0 [.slot 0]]) 1 2⟩,
          ⟨2, 2, 2, [], .leave⟩] }
    (p.inlined 5 (.of p (.of p))).toOption.map (·.1.blocks.map (·.body.length)) = some [0, 2, 0] := by
  cbv

end Proto

end LuaLift
