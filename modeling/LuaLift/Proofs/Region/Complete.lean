import LuaLift.Proofs.Region.Placement

namespace LuaLift

namespace Plan

def Yields (pl : Plan) (fr : List Frame) (pending : List BlockId) (body : Body) (left : List BlockId) :
    Task → Prop
  | .region stop t => ∃ r, pl.region fr stop t pending = .ok r ∧ r.val.result = body ∧
      r.val.pending.Perm left
  | .place stop b => ∃ r, pl.place fr stop b pending = .ok r ∧ r.val.result = body ∧
      r.val.pending.Perm left
  | .loop l => ∃ r, pl.loopNode fr l pending = .ok r ∧ [r.val.result] = body ∧ r.val.pending.Perm left

variable {pl : Plan} {fr : List Frame} {body rest : Body} {pending left : List BlockId}
  {stop : Option BlockId} {b : BlockId}

namespace Yields

theorem stopped (h : pending.Perm left) : pl.Yields fr pending [] left (.region (some b) (some b)) := by
  refine ⟨⟨⟨[], pending⟩, Nat.le_refl _⟩, ?_, rfl, h⟩
  rw [region, if_pos rfl]

theorem header (hs : stop ≠ some b) (ha : Frame.arrive b fr = .header) (h : pending.Perm left) :
    pl.Yields fr pending [] left (.region stop (some b)) := by
  refine ⟨⟨⟨[], pending⟩, Nat.le_refl _⟩, ?_, rfl, h⟩
  rw [region, if_neg hs]
  simp only [ha]

theorem follow (hs : stop ≠ some b) (ha : Frame.arrive b fr = .follow) (h : pending.Perm left) :
    pl.Yields fr pending [.brk] left (.region stop (some b)) := by
  refine ⟨⟨⟨[.brk], pending⟩, Nat.le_refl _⟩, ?_, rfl, h⟩
  rw [region, if_neg hs]
  simp only [ha]

theorem loop {l : ShapedLoop} {node : Node} {middle : List BlockId} (hs : stop ≠ some l.header)
    (ha : Frame.arrive l.header fr = .inside) (hl : pl.loopAt? l.header = some l)
    (hn : pl.Yields fr pending [node] middle (.loop l))
    (hr : ∀ pending, pending.Perm middle →
      pl.Yields fr pending rest left (.region stop l.shape.follow?)) :
    pl.Yields fr pending (node :: rest) left (.region stop (some l.header)) := by
  obtain ⟨⟨⟨node, later⟩, hlt⟩, hn', hnode, hp⟩ := hn
  obtain ⟨⟨⟨rest, last⟩, hle⟩, hr', hrest, hlast⟩ := hr later hp
  cases hnode
  cases hrest
  refine ⟨⟨⟨node :: rest, last⟩, Nat.le_trans hle (Nat.le_of_lt hlt)⟩, ?_, rfl, hlast⟩
  rw [region, if_neg hs]
  simp only [ha, hl, hn', hr']

theorem block (hs : stop ≠ some b) (ha : Frame.arrive b fr = .inside) (hl : pl.loopAt? b = none)
    (h : pl.Yields fr pending body left (.place stop b)) :
    pl.Yields fr pending body left (.region stop (some b)) := by
  obtain ⟨r, hr, hbody, hp⟩ := h
  refine ⟨⟨r.val, Nat.le_of_lt r.property⟩, ?_, hbody, hp⟩
  rw [region, if_neg hs]
  simp only [ha, hl, hr]

section Place

variable (hb : b ∈ pending)
include hb

theorem closing (hc : closing? fr = some b) (h : (pending.erase b).Perm left) :
    pl.Yields fr pending ((pl.proto.body b).map .stmt) left (.place stop b) := by
  refine ⟨⟨⟨_, pending.erase b⟩, Digraph.length_erase_lt hb⟩, ?_, rfl, h⟩
  rw [place, dif_pos hb]
  exact if_pos hc

variable (hc : closing? fr ≠ some b)
include hc

theorem leave (hj : pl.proto.jump b = .leave) (h : (pending.erase b).Perm left) :
    pl.Yields fr pending ((pl.proto.body b).map .stmt) left (.place stop b) := by
  refine ⟨⟨⟨_, pending.erase b⟩, Digraph.length_erase_lt hb⟩, ?_, rfl, h⟩
  rw [place, dif_pos hb]
  refine (if_neg hc).trans ?_
  simp only [hj]

theorem always {t : BlockId} (hj : pl.proto.jump b = .always t)
    (h : pl.Yields fr (pending.erase b) rest left (.region stop (some t))) :
    pl.Yields fr pending ((pl.proto.body b).map .stmt ++ rest) left (.place stop b) := by
  obtain ⟨⟨⟨rest, last⟩, hle⟩, hr, hrest, hlast⟩ := h
  cases hrest
  have hlt := Digraph.length_erase_lt hb
  refine ⟨⟨⟨(pl.proto.body b).map .stmt ++ rest, last⟩, Nat.lt_of_le_of_lt hle hlt⟩, ?_, rfl, hlast⟩
  rw [place, dif_pos hb]
  refine (if_neg hc).trans ?_
  simp only [hj, hr]

theorem branch {c : Expr} {t e : BlockId} {onTrue onFalse : Body} {middle later : List BlockId}
    (hj : pl.proto.jump b = .branch c t e)
    (ht : pl.Yields fr (pending.erase b) onTrue middle (.region (pl.mergePoint? fr b) (some t)))
    (he : ∀ pending, pending.Perm middle →
      pl.Yields fr pending onFalse later (.region (pl.mergePoint? fr b) (some e)))
    (hr : ∀ pending, pending.Perm later →
      pl.Yields fr pending rest left (.region stop (pl.mergePoint? fr b))) :
    pl.Yields fr pending ((pl.proto.body b).map .stmt ++ conditional c onTrue onFalse :: rest) left
      (.place stop b) := by
  obtain ⟨⟨⟨onTrue, second⟩, hlt⟩, ht', htrue, hp⟩ := ht
  obtain ⟨⟨⟨onFalse, third⟩, hle⟩, he', hfalse, hp'⟩ := he second hp
  obtain ⟨⟨⟨rest, last⟩, hle'⟩, hr', hrest, hlast⟩ := hr third hp'
  cases htrue
  cases hfalse
  cases hrest
  have hlen := Digraph.length_erase_lt hb
  have hlast' : last.length < pending.length := by
    simp only at hlt hle hle'
    omega
  refine ⟨⟨⟨(pl.proto.body b).map .stmt ++ conditional c onTrue onFalse :: rest, last⟩, hlast'⟩, ?_, rfl,
    hlast⟩
  rw [place, dif_pos hb]
  refine (if_neg hc).trans ?_
  simp only [hj, ht', he', hr']

end Place

theorem headed {l : ShapedLoop} {wrap : Body → Node} {entry : BlockId} (hb : l.header ∈ pending)
    (hh : l.shape.headed? = some (wrap, entry))
    (h : pl.Yields (pl.frame l :: fr) (pending.erase l.header) body left (.region none (some entry))) :
    pl.Yields fr pending [wrap body] left (.loop l) := by
  obtain ⟨⟨⟨body, last⟩, hle⟩, hr, hbody, hlast⟩ := h
  cases hbody
  have hlt := Digraph.length_erase_lt hb
  have hd : pl.headed fr l entry pending = .ok ⟨⟨body, last⟩, Nat.lt_of_le_of_lt hle hlt⟩ := by
    rw [Plan.headed, dif_pos hb]
    simp only [hr]
  refine ⟨⟨⟨wrap body, last⟩, Nat.lt_of_le_of_lt hle hlt⟩, ?_, rfl, hlast⟩
  rw [loopNode]
  cases hs : l.shape with
  | pretest | numeric | generic =>
    rw [hs] at hh
    cases hh
    simp only [hd]
  | posttest | endless =>
    rw [hs] at hh
    cases hh

theorem whole {l : ShapedLoop} {wrap : Body → Node} (hw : pl.whole? l = some wrap)
    (h : pl.Yields (pl.frame l :: fr) pending body left (.place none l.header)) :
    pl.Yields fr pending [wrap body] left (.loop l) := by
  obtain ⟨⟨⟨body, last⟩, hlt⟩, hr, hbody, hlast⟩ := h
  cases hbody
  refine ⟨⟨⟨wrap body, last⟩, hlt⟩, ?_, rfl, hlast⟩
  rw [loopNode]
  unfold whole? at hw
  cases hs : l.shape with
  | posttest latch w =>
    rw [hs] at hw
    cases hc : pl.untilTest? l.header latch with
    | none => simp [hc] at hw
    | some c =>
      simp only [hc, Option.map_some, Option.some.injEq] at hw
      subst hw
      simp only [hr, hc]
  | endless w =>
    rw [hs] at hw
    cases hw
    simp only [hr]
  | pretest | numeric | generic =>
    rw [hs] at hw
    cases hw

end Yields

theorem Builds.yields {task : Task} {placed : Placed} (h : pl.Builds fr task body placed)
    (hp : (placed.map Prod.fst ++ left).Perm pending) : pl.Yields fr pending body left task := by
  induction h generalizing pending left with
  | absent => exact ⟨⟨⟨[], pending⟩, Nat.le_refl _⟩, by rw [region], rfl, hp.symm⟩
  | stopped => exact .stopped hp.symm
  | header hs ha => exact .header hs ha hp.symm
  | follow hs ha => exact .follow hs ha hp.symm
  | loop hs ha hn hr ihn ihr =>
    rw [List.map_append, List.append_assoc] at hp
    exact .loop hs ha hn.loopAt (ihn hp) fun _ h => ihr h.symm
  | block hs ha hl hb ih => exact .block hs ha hl (ih hp)
  | closing hc =>
    obtain ⟨hb, hl⟩ := List.cons_perm_iff_perm_erase.1 hp
    exact .closing hb hc hl.symm
  | leave hc hj =>
    obtain ⟨hb, hl⟩ := List.cons_perm_iff_perm_erase.1 hp
    exact .leave hb hc hj hl.symm
  | always hc hj hr ih =>
    obtain ⟨hb, hl⟩ := List.cons_perm_iff_perm_erase.1 hp
    exact .always hb hc hj (ih hl)
  | branch hc hj ht he hr iht ihe ihr =>
    simp only [List.map_cons, List.map_append, List.cons_append, List.append_assoc] at hp
    obtain ⟨hb, hl⟩ := List.cons_perm_iff_perm_erase.1 hp
    exact .branch hb hc hj (iht hl) (fun _ h => ihe h.symm) fun _ h => ihr h.symm
  | headed hl hh hb ih =>
    obtain ⟨hm, hl⟩ := List.cons_perm_iff_perm_erase.1 hp
    exact .headed hm hh (ih hl)
  | whole hl hw hb ih => exact .whole hw (ih hp)

end Plan

end LuaLift
