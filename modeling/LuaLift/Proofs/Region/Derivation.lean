import LuaLift.Region.Build

namespace LuaLift

inductive Task where
  | region (stop current : Option BlockId)
  | place (stop : Option BlockId) (b : BlockId)
  | loop (l : ShapedLoop)

namespace Task

def target? : Task → Option BlockId
  | region _ t => t
  | place _ b => some b
  | loop l => some l.header

def exit? : Task → Option BlockId
  | region stop _ | place stop _ => stop
  | loop l => l.shape.follow?

end Task

def LoopShape.headed? : LoopShape → Option ((Body → Node) × BlockId)
  | pretest c entry _ => some (.whileDo c, entry)
  | numeric v start stop step entry _ => some (.numericFor v start stop step, entry)
  | generic vs iterators entry _ => some (.genericFor vs iterators, entry)
  | _ => none

namespace Plan

def whole? (pl : Plan) (l : ShapedLoop) : Option (Body → Node) :=
  match l.shape with
  | .posttest latch _ => (pl.untilTest? l.header latch).map fun c body => .repeatUntil body c
  | .endless _ => some (.whileDo (.boolean true))
  | _ => none

def closing? (frames : List Frame) : Option BlockId := frames.head?.bind (·.closing)

abbrev Placed := List (BlockId × List Frame)

/-- What a task builds inside some frames, with the blocks it places and their own frames. -/
inductive Builds (pl : Plan) : List Frame → Task → Body → Placed → Prop
  | absent {fr : List Frame} {stop : Option BlockId} : Builds pl fr (.region stop none) [] []
  | stopped {fr : List Frame} {b : BlockId} : Builds pl fr (.region (some b) (some b)) [] []
  | header {fr : List Frame} {stop : Option BlockId} {b : BlockId} (hs : stop ≠ some b)
      (ha : Frame.arrive b fr = .header) : Builds pl fr (.region stop (some b)) [] []
  | follow {fr : List Frame} {stop : Option BlockId} {b : BlockId} (hs : stop ≠ some b)
      (ha : Frame.arrive b fr = .follow) : Builds pl fr (.region stop (some b)) [.brk] []
  | loop {fr : List Frame} {stop : Option BlockId} {l : ShapedLoop} {node : Node} {rest : Body}
      {placed later : Placed} (hs : stop ≠ some l.header) (ha : Frame.arrive l.header fr = .inside)
      (hn : Builds pl fr (.loop l) [node] placed)
      (hr : Builds pl fr (.region stop l.shape.follow?) rest later) :
      Builds pl fr (.region stop (some l.header)) (node :: rest) (placed ++ later)
  | block {fr : List Frame} {stop : Option BlockId} {b : BlockId} {body : Body} {placed : Placed}
      (hs : stop ≠ some b) (ha : Frame.arrive b fr = .inside) (hl : pl.loopAt? b = none)
      (hb : Builds pl fr (.place stop b) body placed) : Builds pl fr (.region stop (some b)) body placed
  | closing {fr : List Frame} {stop : Option BlockId} {b : BlockId} (hc : closing? fr = some b) :
      Builds pl fr (.place stop b) ((pl.proto.body b).map .stmt) [(b, fr)]
  | leave {fr : List Frame} {stop : Option BlockId} {b : BlockId} (hc : closing? fr ≠ some b)
      (hj : pl.proto.jump b = .leave) :
      Builds pl fr (.place stop b) ((pl.proto.body b).map .stmt) [(b, fr)]
  | always {fr : List Frame} {stop : Option BlockId} {b t : BlockId} {rest : Body} {placed : Placed}
      (hc : closing? fr ≠ some b) (hj : pl.proto.jump b = .always t)
      (hr : Builds pl fr (.region stop (some t)) rest placed) :
      Builds pl fr (.place stop b) ((pl.proto.body b).map .stmt ++ rest) ((b, fr) :: placed)
  | branch {fr : List Frame} {stop : Option BlockId} {b t e : BlockId} {c : Expr}
      {onTrue onFalse rest : Body} {first second placed : Placed} (hc : closing? fr ≠ some b)
      (hj : pl.proto.jump b = .branch c t e)
      (ht : Builds pl fr (.region (pl.mergePoint? fr b) (some t)) onTrue first)
      (he : Builds pl fr (.region (pl.mergePoint? fr b) (some e)) onFalse second)
      (hr : Builds pl fr (.region stop (pl.mergePoint? fr b)) rest placed) :
      Builds pl fr (.place stop b)
        ((pl.proto.body b).map .stmt ++ conditional c onTrue onFalse :: rest)
        ((b, fr) :: (first ++ (second ++ placed)))
  | headed {fr : List Frame} {l : ShapedLoop} {wrap : Body → Node} {entry : BlockId} {body : Body}
      {placed : Placed} (hl : pl.loopAt? l.header = some l)
      (hh : l.shape.headed? = some (wrap, entry))
      (hb : Builds pl (pl.frame l :: fr) (.region none (some entry)) body placed) :
      Builds pl fr (.loop l) [wrap body] ((l.header, pl.frame l :: fr) :: placed)
  | whole {fr : List Frame} {l : ShapedLoop} {wrap : Body → Node} {body : Body} {placed : Placed}
      (hl : pl.loopAt? l.header = some l) (hw : pl.whole? l = some wrap)
      (hb : Builds pl (pl.frame l :: fr) (.place none l.header) body placed) :
      Builds pl fr (.loop l) [wrap body] placed

variable {pl : Plan}

def Derives (pl : Plan) (fr : List Frame) (task : Task) (pending : List BlockId) (body : Body)
    (left : List BlockId) : Prop :=
  ∃ placed, pl.Builds fr task body placed ∧ (placed.map Prod.fst ++ left).Perm pending

theorem perm_cons {b : BlockId} {l pending : List BlockId} (hb : b ∈ pending)
    (h : l.Perm (pending.erase b)) : (b :: l).Perm pending :=
  (h.cons b).trans (List.perm_cons_erase hb).symm

theorem perm_append {p q : Placed} {l m n : List BlockId} (hp : (p.map Prod.fst ++ m).Perm l)
    (hq : (q.map Prod.fst ++ n).Perm m) : ((p ++ q).map Prod.fst ++ n).Perm l := by
  rw [List.map_append, List.append_assoc]
  exact (hq.append_left _).trans hp

mutual

theorem region_derives {fr : List Frame} {stop current : Option BlockId} {pending : List BlockId}
    {r : { r : Built Body // r.pending.length ≤ pending.length }}
    (h : pl.region fr stop current pending = .ok r) :
    pl.Derives fr (.region stop current) pending r.val.result r.val.pending := by
  unfold region at h
  split at h
  · cases h
    exact ⟨[], .absent, .refl _⟩
  · next b =>
    split at h
    · next hs =>
      cases h
      cases hs
      exact ⟨[], .stopped, .refl _⟩
    · next hs =>
      split at h
      · next ha =>
        cases h
        exact ⟨[], .header hs ha, .refl _⟩
      · next ha =>
        cases h
        exact ⟨[], .follow hs ha, .refl _⟩
      · cases h
      · next ha =>
        split at h
        · next l hl =>
          split at h
          · cases h
          · next node left hlt hn =>
            split at h
            · cases h
            · next rest last hle hr =>
              cases h
              obtain rfl : l.header = b := by simpa using List.find?_some hl
              obtain ⟨p, hp, hpp⟩ := loop_derives hl hn
              obtain ⟨q, hq, hqp⟩ := region_derives hr
              exact ⟨p ++ q, .loop hs ha hp hq, perm_append hpp hqp⟩
        · next hl =>
          split at h
          · cases h
          · next r hlt hb =>
            cases h
            obtain ⟨p, hp, hpp⟩ := place_derives hb
            exact ⟨p, .block hs ha hl hp, hpp⟩
termination_by (pending.length, 2)

theorem place_derives {fr : List Frame} {stop : Option BlockId} {b : BlockId} {pending : List BlockId}
    {r : { r : Built Body // r.pending.length < pending.length }}
    (h : pl.place fr stop b pending = .ok r) :
    pl.Derives fr (.place stop b) pending r.val.result r.val.pending := by
  unfold place at h
  split at h
  · next hb =>
    have hlt := Digraph.length_erase_lt hb
    simp only at h
    split at h
    · next hc =>
      cases h
      exact ⟨[(b, fr)], .closing hc, perm_cons hb (.refl _)⟩
    · next hc =>
      split at h
      · next hj =>
        cases h
        exact ⟨[(b, fr)], .leave hc hj, perm_cons hb (.refl _)⟩
      · next t hj =>
        split at h
        · cases h
        · next rest last hle hr =>
          cases h
          obtain ⟨p, hp, hpp⟩ := region_derives hr
          exact ⟨(b, fr) :: p, .always hc hj hp, perm_cons hb hpp⟩
      · next c t e hj =>
        split at h
        · cases h
        · next onTrue left hle ht =>
          have hleft := Nat.lt_of_le_of_lt hle hlt
          simp only at h hleft
          split at h
          · cases h
          · next onFalse later hle' he =>
            have hlater := Nat.lt_of_le_of_lt hle' hleft
            simp only at h hlater
            split at h
            · cases h
            · next rest last hle'' hr =>
              cases h
              obtain ⟨p, hp, hpp⟩ := region_derives ht
              obtain ⟨q, hq, hqp⟩ := region_derives he
              obtain ⟨q', hq', hqp'⟩ := region_derives hr
              exact ⟨_, .branch hc hj hp hq hq', perm_cons hb (perm_append hpp (perm_append hqp hqp'))⟩
  · cases h
termination_by (pending.length, 0)

theorem headed_derives {fr : List Frame} {l : ShapedLoop} {wrap : Body → Node} {entry : BlockId}
    {pending : List BlockId} {r : { r : Built Body // r.pending.length < pending.length }}
    (hl : pl.loopAt? l.header = some l) (hs : l.shape.headed? = some (wrap, entry))
    (h : pl.headed fr l entry pending = .ok r) :
    pl.Derives fr (.loop l) pending [wrap r.val.result] r.val.pending := by
  unfold headed at h
  split at h
  · next hb =>
    have hlt := Digraph.length_erase_lt hb
    simp only at h
    split at h
    · cases h
    · next body hle hr =>
      cases h
      obtain ⟨p, hp, hpp⟩ := region_derives hr
      exact ⟨_, .headed hl hs hp, perm_cons hb hpp⟩
  · cases h
termination_by (pending.length, 0)

theorem loop_derives {fr : List Frame} {l : ShapedLoop} {pending : List BlockId}
    {r : { r : Built Node // r.pending.length < pending.length }}
    (hl : pl.loopAt? l.header = some l) (h : pl.loopNode fr l pending = .ok r) :
    pl.Derives fr (.loop l) pending [r.val.result] r.val.pending := by
  unfold loopNode at h
  split at h
  · next c entry follow hs =>
    split at h
    · cases h
    · next body left hle hr =>
      cases h
      exact headed_derives (r := ⟨⟨body, left⟩, hle⟩) hl (by rw [hs]; rfl) hr
  · next v start stop step entry follow hs =>
    split at h
    · cases h
    · next body left hle hr =>
      cases h
      exact headed_derives (r := ⟨⟨body, left⟩, hle⟩) hl (by rw [hs]; rfl) hr
  · next vs iterators entry follow hs =>
    split at h
    · cases h
    · next body left hle hr =>
      cases h
      exact headed_derives (r := ⟨⟨body, left⟩, hle⟩) hl (by rw [hs]; rfl) hr
  · next latch follow hs =>
    split at h
    · cases h
    · next body left hle hr =>
      split at h
      · next c hc =>
        cases h
        obtain ⟨p, hp, hpp⟩ := place_derives hr
        exact ⟨p, .whole hl (show pl.whole? l = some (.repeatUntil · c) by simp [whole?, hs, hc]) hp, hpp⟩
      · cases h
  · next follow hs =>
    split at h
    · cases h
    · next body left hle hr =>
      cases h
      obtain ⟨p, hp, hpp⟩ := place_derives hr
      exact ⟨p, .whole hl (show pl.whole? l = some (.whileDo (.boolean true)) by simp [whole?, hs]) hp, hpp⟩
termination_by (pending.length, 1)

end

end Plan

end LuaLift
