import LuaLift.Proofs.Slots.Arrival
import LuaLift.Proofs.Slots.Interference

namespace LuaLift

open Relation

namespace Definitions

variable {ds : Definitions} {p : Proto} {f : Flow} {r : Reaching} {l : Liveness} {c : Partition}

theorem mem_livePoints {w : Nat} {pt : Point} (h : (w, pt) ∈ ds.livePoints p f r l c) : ∃ state x d,
    (ds.states p r pt.1)[pt.2]? = some state ∧ (ds.ofSlot state x).head? = some d ∧ c.root d = w := by
  unfold livePoints at h
  obtain ⟨b, -, h⟩ := List.mem_flatMap.1 h
  obtain ⟨⟨state, live, point⟩, hzip, h⟩ := List.mem_flatMap.1 h
  obtain ⟨x, -, h⟩ := List.mem_filterMap.1 h
  obtain ⟨d, hd, he⟩ := Option.map_eq_some_iff.1 h
  obtain ⟨i, hi⟩ := List.mem_iff_getElem?.1 hzip
  obtain ⟨hstate, hpoint⟩ := List.getElem?_zip_eq_some.1 hi
  rw [LiveRange.atPoints, List.getElem?_map, List.getElem?_zipIdx] at hpoint
  obtain ⟨⟨live', j⟩, hj, heq⟩ := Option.map_eq_some_iff.1 hpoint
  obtain ⟨s, -, hs⟩ := Option.map_eq_some_iff.1 hj
  cases hs
  cases heq
  cases he
  exact ⟨state, x, d, by simpa using hstate, hd, rfl⟩

theorem eq_of_mem_livePoints (hc : ds.Coherent c) {w w' : Nat} {pt : Point}
    (h : (w, pt) ∈ ds.livePoints p f r l c) (h' : (w', pt) ∈ ds.livePoints p f r l c)
    (hslot : ds.slot? w = ds.slot? w') : w = w' := by
  obtain ⟨state, x, d, hstate, hd, rfl⟩ := mem_livePoints h
  obtain ⟨state', x', d', hstate', hd', rfl⟩ := mem_livePoints h'
  obtain rfl := Option.some.inj (hstate.symm.trans hstate')
  have hx := (mem_ofSlot.1 (List.mem_of_head? hd)).2
  have hx' := (mem_ofSlot.1 (List.mem_of_head? hd')).2
  rw [hc.slot, hc.slot, hx, hx'] at hslot
  obtain rfl := Option.some.inj hslot
  rw [Option.some.inj (hd.symm.trans hd')]

def star : List Nat → List (Nat × Nat)
  | [] => []
  | w :: ws => ws.map (w, ·)

theorem mergeNamed_eq {rangeOf : Nat → List Point} {first : Nat} {range : List Point} {ws : List Nat}
    (h : ∀ w ∈ ws, overlap range (rangeOf w) = false)
    (hapart : ws.Pairwise fun w w' => overlap (rangeOf w) (rangeOf w') = false) (c : Partition) :
    mergeNamed rangeOf first range ws c = c.unionAll (ws.map (first, ·)) := by
  induction ws generalizing range c with
  | nil => rfl
  | cons w ws ih =>
    obtain ⟨hw, hapart⟩ := List.pairwise_cons.1 hapart
    rw [mergeNamed, h w (.head _)]
    apply ih _ hapart
    intro w' hw'
    have hrange := h w' (.tail _ hw')
    have hfirst := hw w' hw'
    unfold overlap at *
    rw [List.any_append, hrange, hfirst]
    rfl

theorem mergeGroup_eq {rangeOf : Nat → List Point} {ws : List Nat}
    (hapart : ws.Pairwise fun w w' => overlap (rangeOf w) (rangeOf w') = false) (c : Partition) :
    mergeGroup rangeOf c ws = c.unionAll (star ws) := by
  cases ws with
  | nil => rfl
  | cons w ws =>
    obtain ⟨hw, hapart⟩ := List.pairwise_cons.1 hapart
    exact mergeNamed_eq hw hapart c

theorem foldl_mergeGroup {rangeOf : Nat → List Point} {groups : List (List Nat)}
    (hapart : ∀ ws ∈ groups, ws.Pairwise fun w w' => overlap (rangeOf w) (rangeOf w') = false) (c : Partition) :
    groups.foldl (mergeGroup rangeOf) c = c.unionAll (groups.flatMap star) := by
  induction groups generalizing c with
  | nil => rfl
  | cons ws groups ih =>
    rw [List.foldl_cons, mergeGroup_eq (hapart ws (.head _)), ih fun ws' hws' => hapart ws' (.tail _ hws'),
      List.flatMap_cons, Partition.unionAll, Partition.unionAll, Partition.unionAll, List.foldl_append]

def nameLinks (ds : Definitions) (p : Proto) (c : Partition) : List (Nat × Nat) :=
  ((List.range p.debugNames.length).map (ds.namedWebs p c)).flatMap star

theorem nodup_eraseDups : (l : List Nat) → l.eraseDups.Nodup
  | [] => .nil
  | a :: l => by
    rw [List.eraseDups_cons, List.nodup_cons]
    refine ⟨?_, nodup_eraseDups (l.filter fun b => !b == a)⟩
    simp
termination_by l => l.length
decreasing_by exact Nat.lt_succ_of_le (List.length_filter_le _ _)

theorem webs_eq : ds.webs p f r l = (ds.readWebs p f r).unionAll (ds.nameLinks p (ds.readWebs p f r)) := by
  have hcoherent := @coherent_readWebs ds p f r
  apply foldl_mergeGroup
  intro ws hws
  obtain ⟨name, -, rfl⟩ := List.mem_map.1 hws
  apply List.Pairwise.imp_of_mem _ (nodup_eraseDups _)
  intro w w' hw hw' hne
  rw [Bool.eq_false_iff]
  intro hmeet
  obtain ⟨pt, hpt, hpt'⟩ := List.any_eq_true.1 hmeet
  rw [List.contains_eq_mem, decide_eq_true_eq] at hpt'
  obtain ⟨⟨v, pt⟩, hv, rfl⟩ := List.mem_map.1 hpt
  obtain ⟨⟨v', pt'⟩, hv', rfl⟩ := List.mem_map.1 hpt'
  obtain ⟨hmem, heq⟩ := List.mem_filter.1 hv
  obtain ⟨hmem', heq'⟩ := List.mem_filter.1 hv'
  obtain rfl : v = w := of_decide_eq_true heq
  obtain rfl : v' = w' := of_decide_eq_true heq'
  exact hne (eq_of_mem_livePoints hcoherent hmem hmem' (alike_of_namedWebs hcoherent hw hw').2.2)

theorem exists_name_of_nameLinks {e : Nat × Nat} (h : e ∈ ds.nameLinks p c) :
    ∃ name, e.1 ∈ ds.namedWebs p c name ∧ e.2 ∈ ds.namedWebs p c name := by
  obtain ⟨ws, hws, he⟩ := List.mem_flatMap.1 h
  obtain ⟨name, -, rfl⟩ := List.mem_map.1 hws
  refine ⟨name, ?_⟩
  generalize ds.namedWebs p c name = ws at he
  cases ws with
  | nil => cases he
  | cons w ws =>
    obtain ⟨w', hw', rfl⟩ := List.mem_map.1 he
    exact ⟨.head _, .tail _ hw'⟩

theorem root_webs_constant {α : Type} {g : Nat → α} (hread : ∀ e ∈ ds.links p f r, g e.1 = g e.2)
    (hname : ∀ d e name, ds.debugIndex? p d = some name → ds.debugIndex? p e = some name → g d = g e) (d : Nat) :
    g ((ds.webs p f r l).root d) = g d := by
  have hlength : (Partition.discrete ds.size).parents.length = ds.size := by simp [Partition.discrete]
  have hreads (d : Nat) : g ((ds.readWebs p f r).root d) = g d := by
    apply Partition.root_unionAll_constant
    · intro d
      rw [Partition.root_discrete]
    · intro e he
      obtain ⟨h₁, h₂, -⟩ := alike_of_links he
      rw [hlength]
      exact ⟨h₁, h₂, hread e he⟩
  rw [webs_eq]
  apply Partition.root_unionAll_constant hreads
  intro e he
  obtain ⟨name, h₁, h₂⟩ := exists_name_of_nameLinks he
  obtain ⟨hlt₁, hlt₂, -⟩ := alike_of_namedWebs coherent_readWebs h₁ h₂
  rw [coherent_readWebs.length]
  refine ⟨hlt₁, hlt₂, ?_⟩
  obtain ⟨d₁, -, hd₁, hw₁⟩ := mem_namedWebs.1 h₁
  obtain ⟨d₂, -, hd₂, hw₂⟩ := mem_namedWebs.1 h₂
  rw [← hw₁, ← hw₂, hreads, hreads]
  exact hname d₁ d₂ name hd₁ hd₂

theorem same_of_star {ws : List Nat} (h : ∀ e ∈ star ws, c.Same e.1 e.2) {w w' : Nat} (hw : w ∈ ws) (hw' : w' ∈ ws) :
    c.Same w w' := by
  cases ws with
  | nil => cases hw
  | cons first ws =>
    have hfirst {v : Nat} (hv : v ∈ first :: ws) : c.Same first v := by
      rcases List.mem_cons.1 hv with rfl | hv
      · rfl
      · exact h (first, v) (List.mem_map.2 ⟨v, hv, rfl⟩)
    exact (hfirst hw).symm.trans (hfirst hw')

theorem same_of_name {d e name : Nat} (hd : ds.debugIndex? p d = some name) (he : ds.debugIndex? p e = some name) :
    (ds.webs p f r l).Same d e := by
  have hcoherent := @coherent_readWebs ds p f r
  have hname := (slot?_of_debugIndex? hd).1
  have hmem {d : Nat} (hd : ds.debugIndex? p d = some name) :
      (ds.readWebs p f r).root d ∈ ds.namedWebs p (ds.readWebs p f r) name := by
    obtain ⟨-, hslot⟩ := slot?_of_debugIndex? hd
    rw [List.getElem?_eq_getElem hname] at hslot
    exact mem_namedWebs.2 ⟨d, lt_size_of_slot? hslot, hd, rfl⟩
  have hroot (d : Nat) : (ds.webs p f r l).Same d ((ds.readWebs p f r).root d) :=
    extends_webs.same hcoherent d _ (Partition.root_root _ _).symm
  have hstar : ∀ e ∈ star (ds.namedWebs p (ds.readWebs p f r) name), (ds.webs p f r l).Same e.1 e.2 := by
    intro e he
    rw [webs_eq]
    apply same_unionAll hcoherent
    · intro e he
      obtain ⟨name, h₁, h₂⟩ := exists_name_of_nameLinks he
      exact alike_of_namedWebs hcoherent h₁ h₂
    · exact List.mem_flatMap.2 ⟨_, List.mem_map.2 ⟨name, List.mem_range.2 hname, rfl⟩, he⟩
  exact ((hroot d).trans (same_of_star hstar (hmem hd) (hmem he))).trans (hroot e).symm

theorem reads_iff_slotReads {b : BlockId} {i : Nat} {x : Slot} {block : Block} (hblock : p.blocks[b]? = some block) :
    p.Reads .slot x (b, i) ↔ ∃ reads, block.slotReads[i]? = some reads ∧ x ∈ reads := by
  have hbody : p.body b = block.body := Proto.body_of_getElem? hblock
  have hjump : p.jump b = block.jump := Proto.jump_of_getElem? hblock
  constructor
  · rintro (⟨hs, hx⟩ | ⟨hi, hx⟩)
    · rw [hbody] at hs
      have hi := (List.getElem?_eq_some_iff.1 hs).1
      refine ⟨_, ?_, hx⟩
      rw [Block.slotReads, List.getElem?_append_left (by simpa using hi), List.getElem?_map, hs]
      rfl
    · rw [hbody] at hi
      rw [hjump] at hx
      refine ⟨_, ?_, hx⟩
      simp [Block.slotReads, hi]
  · rintro ⟨reads, hreads, hx⟩
    rw [Block.slotReads] at hreads
    rcases Nat.lt_or_ge i block.body.length with hi | hi
    · rw [List.getElem?_append_left (by simpa using hi), List.getElem?_map] at hreads
      obtain ⟨s, hs, rfl⟩ := Option.map_eq_some_iff.1 hreads
      exact .stmt (hbody ▸ hs) hx
    · rw [List.getElem?_append_right (by simpa using hi), List.getElem?_singleton] at hreads
      split at hreads
      · next hend =>
        cases hreads
        rw [List.length_map] at hend
        exact .jump (by rw [hbody]; omega) (hjump ▸ hx)
      · cases hreads

theorem mem_readsIn_iff_reads {b : BlockId} {x : Slot} {defs : List Nat} (hb : b < p.blocks.length) :
    (x, defs) ∈ ds.readsIn p r b ↔ ∃ (i : Nat) (state : NatSet),
      (ds.states p r b)[i]? = some state ∧ defs = ds.ofSlot state x ∧ p.Reads .slot x (b, i) := by
  have hblock := List.getElem?_eq_getElem hb
  simp only [mem_readsIn_iff hblock, reads_iff_slotReads hblock]
  constructor
  · rintro ⟨i, state, reads, hstate, hreads, hx, hdefs⟩
    exact ⟨i, state, hstate, hdefs, reads, hreads, hx⟩
  · rintro ⟨i, state, hstate, hdefs, reads, hreads, hx⟩
    exact ⟨i, state, reads, hstate, hreads, hx, hdefs⟩

end Definitions

namespace Proto

def nameIndex? (p : Proto) (d : Definition) : Option Nat := do
  let b ← d.site.block?
  let block ← p.blocks[b]?
  p.debugNames.findIdx? fun n => n.slot = d.slot && n.covers block

/-- Definitions that belong to one variable: both reach one read of their slot, or one debug name holds for both. -/
inductive Joined (p : Proto) (d e : Definition) : Prop where
  | read {q : Point} (hslot : e.slot = d.slot) (hread : p.Reads .slot d.slot q) (hd : p.Arrives d q)
    (he : p.Arrives e q)
  | name {i : Nat} (hd : p.Defines d) (he : p.Defines e) (hdi : p.nameIndex? d = some i)
    (hei : p.nameIndex? e = some i)

theorem Arrives.defines {p : Proto} {d : Definition} {q : Point} (h : p.Arrives d q) : p.Defines d := by
  obtain ⟨t, ht, -⟩ := h
  exact ht.defines

theorem Joined.defines {p : Proto} {d e : Definition} (h : p.Joined d e) : p.Defines d ∧ p.Defines e := by
  cases h with
  | read _ _ hd he => exact ⟨hd.defines, he.defines⟩
  | name hd he => exact ⟨hd, he⟩

end Proto

namespace Definitions

variable {p : Proto} {r : Reaching} {l : Liveness} {m n : Nat} {d e : Definition}

theorem Numbered.debugIndex? (h : Numbered p n d) : (of p (.of p)).debugIndex? p n = p.nameIndex? d := by
  simp only [Definitions.debugIndex?, Proto.nameIndex?, h.slot?, Definitions.block?, Option.bind_eq_bind,
    Option.bind_some]
  rw [h, Option.bind_some]

def rootOf? (ds : Definitions) (c : Partition) (d : Definition) : Option Nat := (ds.number? d.site).map c.root

theorem Numbered.rootOf? {c : Partition} (h : Numbered p n d) : (of p (.of p)).rootOf? c d = some (c.root n) := by
  rw [Definitions.rootOf?, h.number?, Option.map_some]

theorem numbered_of_slot? {x : Slot} (h : (of p (.of p)).slot? n = some x) : ∃ d, Numbered p n d ∧ d.slot = x :=
  Option.map_eq_some_iff.1 h

section

variable (hp : p.WellShaped) (hr : ((of p (.of p)).equations p (.of p)).Solves r.atEntry r.atExit)
include hp hr

theorem joined_of_links {k : Nat × Nat} (h : k ∈ (of p (.of p)).links p (.of p) r) :
    ∃ d e, Numbered p k.1 d ∧ Numbered p k.2 e ∧ p.Joined d e := by
  simp only [links, List.mem_flatMap] at h
  obtain ⟨b, hb, ⟨x, defs⟩, hx, hk⟩ := h
  have hb := Flow.mem_order.1 hb
  obtain ⟨i, state, hstate, rfl, hread⟩ := (mem_readsIn_iff_reads (hp.lt_of_isReachable hb)).1 hx
  obtain ⟨h₁, h₂⟩ := List.of_mem_zip hk
  obtain ⟨hm₁, hx₁⟩ := mem_ofSlot.1 h₁
  obtain ⟨hm₂, hx₂⟩ := mem_ofSlot.1 (List.mem_of_mem_tail h₂)
  obtain ⟨d, hd, rfl⟩ := numbered_of_slot? hx₁
  obtain ⟨e, he, hslot⟩ := numbered_of_slot? hx₂
  refine ⟨d, e, hd, he, .read hslot hread ?_ ?_⟩
  · exact (mem_states_iff hp hr hb hstate hd).1 hm₁
  · exact (mem_states_iff hp hr hb hstate he).1 hm₂

theorem eqvGen_of_same (hd : Numbered p m d) (he : Numbered p n e)
    (h : ((of p (.of p)).webs p (.of p) r l).Same m n) : EqvGen p.Joined d e := by
  have hconstant := @root_webs_constant (of p (.of p)) p (.of p) r l _
    (fun n => (of p (.of p)).list[n]?.map (Quot.mk p.Joined)) ?_ ?_
  · have hroot : ((of p (.of p)).webs p (.of p) r l).root m = ((of p (.of p)).webs p (.of p) r l).root n := h
    have hclass := hconstant n
    rw [← hroot, hconstant m, hd, he] at hclass
    exact Quot.eqvGen_exact (Option.some.inj hclass)
  · intro k hk
    obtain ⟨d, e, hd, he, hjoined⟩ := joined_of_links hp hr hk
    rw [hd, he]
    exact congrArg some (Quot.sound hjoined)
  · intro a b name ha hb
    obtain ⟨hname, hslot⟩ := slot?_of_debugIndex? ha
    obtain ⟨-, hslot'⟩ := slot?_of_debugIndex? hb
    rw [List.getElem?_eq_getElem hname] at hslot hslot'
    obtain ⟨d, hd, -⟩ := numbered_of_slot? hslot
    obtain ⟨e, he, -⟩ := numbered_of_slot? hslot'
    rw [hd.debugIndex?] at ha
    rw [he.debugIndex?] at hb
    rw [hd, he]
    exact congrArg some (Quot.sound (.name hd.defines he.defines ha hb))

theorem same_of_joined (hd : Numbered p m d) (he : Numbered p n e) (h : p.Joined d e) :
    ((of p (.of p)).webs p (.of p) r l).Same m n := by
  cases h with
  | read hslot hread hdq heq =>
    obtain ⟨hb, state, hstate, hmem⟩ := exists_state_of_arrives hp hr hd hdq
    have hmem' := (mem_states_iff hp hr hb hstate he).2 heq
    have hreads : (d.slot, (of p (.of p)).ofSlot state d.slot) ∈ (of p (.of p)).readsIn p r _ :=
      (mem_readsIn_iff_reads (hp.lt_of_isReachable hb)).2 ⟨_, state, hstate, rfl, hread⟩
    apply same_of_readsIn (Flow.mem_order.2 hb) hreads
    · exact mem_ofSlot.2 ⟨hmem, hd.slot?⟩
    · exact mem_ofSlot.2 ⟨hmem', he.slot?.trans (congrArg some hslot)⟩
  | name _ _ hdi hei => exact same_of_name (hd.debugIndex?.trans hdi) (he.debugIndex?.trans hei)

theorem same_of_eqvGen (hd : Numbered p m d) (he : Numbered p n e) (h : EqvGen p.Joined d e) :
    ((of p (.of p)).webs p (.of p) r l).Same m n := by
  have hjoined : ∀ d e, p.Joined d e → (of p (.of p)).rootOf? ((of p (.of p)).webs p (.of p) r l) d =
      (of p (.of p)).rootOf? ((of p (.of p)).webs p (.of p) r l) e := by
    intro d e hjoined
    obtain ⟨m, hm⟩ := exists_numbered hjoined.defines.1
    obtain ⟨n, hn⟩ := exists_numbered hjoined.defines.2
    rw [hm.rootOf?, hn.rootOf?, same_of_joined hp hr hm hn hjoined]
  have hroots := congrArg (Quot.lift _ hjoined) (Quot.eqvGen_sound h)
  dsimp only at hroots
  rw [hd.rootOf?, he.rootOf?] at hroots
  exact Option.some.inj hroots

end

end Definitions

/-- The variable of a definition in the function over variables: a parameter has one in the table, and at the
place of a target stands its variable. -/
inductive Proto.Becomes (q : Proto) (t : Locals) : Definition → LocalId → Prop where
  | parameter {s : Slot} {l : Local} {v : LocalId} (hl : t.get? v = some l) (hkind : l.kind = .parameter)
    (hslot : l.slot = s) : Becomes q t ⟨.parameter s, s⟩ v
  | target {b : BlockId} {i n : Nat} {x : Slot} {a : Assignment} {v : LocalId}
    (ha : (q.body b)[i]? = some (.assign a)) (hv : a.targets[n]? = some (.var v)) :
    Becomes q t ⟨.target b i n, x⟩ v

namespace Definitions

variable {p q : Proto} {r : Reaching} {c : Partition} {n : Nat} {d e : Definition} {v : LocalId}

theorem becomes_parameter_iff (hc : (of p (.of p)).Coherent c) {s : Slot} (hs : s < p.parameters) :
    q.Becomes ((of p (.of p)).locals p c) ⟨.parameter s, s⟩ v ↔ (of p (.of p)).localOf? c s = some v := by
  have hslot := slot?_parameter (p := p) (f := .of p) hs
  constructor
  · intro h
    cases h with
    | parameter hl hkind heq =>
      obtain ⟨d, x, earlier, hd, -, hx, rfl⟩ := exists_root_of_get? hc hl
      have hparameter := isParameter_iff.1 ((kind_localOfRoot d x earlier).1 hkind)
      rw [slot?_parameter hparameter] at hx
      obtain rfl := Option.some.inj hx
      rw [slot_localOfRoot] at heq
      rw [← heq]
      exact hd
  · intro h
    obtain ⟨earlier, hl⟩ := get?_locals (p := p) hc hslot h
    have hroot := Nat.lt_of_le_of_lt (c.root_le s) hs
    exact .parameter hl ((kind_localOfRoot _ _ _).2 (isParameter_iff.2 hroot)) (slot_localOfRoot _ _ _)

theorem becomes_target_iff {b : BlockId} {i k : Nat} {s : Stmt} {x : Slot} {block : Block}
    (hq : (of p (.of p)).Rewritten p q r c b block) (hn : (of p (.of p)).number? (.target b i k) = some n)
    (hs : (p.body b)[i]? = some s) (hx : (k, x) ∈ s.slotTargets) :
    q.Becomes ((of p (.of p)).locals p c) ⟨.target b i k, x⟩ v ↔ (of p (.of p)).localOf? c n = some v := by
  obtain ⟨a, rfl, ha⟩ := mem_slotTargets.1 hx
  have hlt : i ≤ block.body.length := hq.body_before ▸ Nat.le_of_lt (List.getElem?_eq_some_iff.1 hs).1
  obtain ⟨state, hstate⟩ : ∃ state, ((of p (.of p)).states p r b)[i]? = some state := exists_state hq.before hlt
  have hafter := hq.getElem?_body hs hstate
  have hw : (of p (.of p)).writtenAt c b i k = (of p (.of p)).localOf? c n := by rw [writtenAt, hn, Option.bind_some]
  have htarget : ∃ a', (q.body b)[i]? = some (.assign a') ∧
      a'.targets[k]? = some ((((of p (.of p)).localOf? c n).map Expr.var).getD (.slot x)) := by
    refine ⟨_, hafter, ?_⟩
    rw [List.getElem?_map, List.getElem?_zipIdx, ha, ← hw, Nat.zero_add]
    rfl
  obtain ⟨a', hbody, htarget⟩ := htarget
  constructor
  · intro h
    cases h with
    | target ha'' hv =>
      rw [hbody] at ha''
      cases ha''
      rw [htarget] at hv
      cases hlocal : (of p (.of p)).localOf? c n with
      | none => rw [hlocal] at hv; cases hv
      | some w => rw [hlocal] at hv; cases hv; rfl
  · intro h
    rw [h] at htarget
    exact .target hbody htarget

section Classes

variable (hc : (of p (.of p)).Coherent c)
  (hq : ∀ b ∈ (Flow.of p).order, ∃ block, (of p (.of p)).Rewritten p q r c b block)
include hc hq

theorem becomes_iff (hn : Numbered p n d) :
    q.Becomes ((of p (.of p)).locals p c) d v ↔ (of p (.of p)).localOf? c n = some v := by
  have hnumber := hn.number?
  cases hn.defines with
  | parameter hs =>
    obtain rfl := hn.inj (getElem?_parameter hs)
    exact becomes_parameter_iff hc hs
  | target hb hs hx =>
    obtain ⟨block, hblock⟩ := hq _ (Flow.mem_order.2 hb)
    exact becomes_target_iff hblock hnumber hs hx

theorem eq_iff_same {m : Nat} {w : LocalId} (hd : Numbered p m d) (he : Numbered p n e)
    (hv : q.Becomes ((of p (.of p)).locals p c) d v) (hw : q.Becomes ((of p (.of p)).locals p c) e w) :
    v = w ↔ c.Same m n := by
  rw [becomes_iff hc hq hd] at hv
  rw [becomes_iff hc hq he] at hw
  constructor
  · rintro rfl
    exact localOf?_eq hv hw
  · intro h
    rw [localOf?_of_same h] at hv
    exact Option.some.inj (hv.symm.trans hw)

theorem exists_first (hv : v < ((of p (.of p)).locals p c).size) : ∃ d, p.Defines d ∧
    q.Becomes ((of p (.of p)).locals p c) d v ∧ ∀ e w, v < w → p.Defines e →
      q.Becomes ((of p (.of p)).locals p c) e w → d.site.Before (.of p) e.site := by
  obtain ⟨m, x, -, hm, hroot, hx, -⟩ := exists_root_of_get? (p := p) hc (List.getElem?_eq_getElem hv)
  obtain ⟨d, hd, -⟩ := numbered_of_slot? hx
  refine ⟨d, hd.defines, (becomes_iff hc hq hd).2 hm, ?_⟩
  intro e w hvw he hbecomes
  obtain ⟨n, hn⟩ := exists_numbered he
  have hw := (becomes_iff hc hq hn).1 hbecomes
  have hlt : c.root m < c.root n := by
    obtain ⟨hv', hm'⟩ := List.getElem?_eq_some_iff.1 (roots_of_localOf? hm)
    obtain ⟨hw', hn'⟩ := List.getElem?_eq_some_iff.1 (roots_of_localOf? hw)
    rw [← hm', ← hn']
    exact List.pairwise_iff_getElem.1 (List.pairwise_lt_range.filter _) v w hv' hw' hvw
  rw [hroot] at hlt
  exact before_of_lt hd hn (Nat.lt_of_lt_of_le hlt (c.root_le n))

theorem locals_of_becomes (hn : Numbered p n d) (hv : q.Becomes ((of p (.of p)).locals p c) d v) :
    ((of p (.of p)).locals p c).slot? v = some d.slot ∧
      (((of p (.of p)).locals p c).kind? v = some .parameter ↔ c.root n < p.parameters) := by
  obtain ⟨earlier, hl⟩ := get?_locals (p := p) hc hn.slot? ((becomes_iff hc hq hn).1 hv)
  rw [Locals.slot?, Locals.kind?, hl, Option.map_some, Option.map_some, slot_localOfRoot, Option.some.injEq,
    Option.some.injEq, kind_localOfRoot, isParameter_iff]
  exact ⟨rfl, .rfl⟩

end Classes

end Definitions

namespace Proto

open Definitions

variable {p q : Proto} {t : Locals} {rounds : Nat}

/-- The variables are the classes of definitions that are joined step by step: each class has one variable, of its
slot, a parameter if there is a parameter in the class, and variables are numbered by their first definitions. -/
theorem resolve_classes (hp : p.violation? = none) (hr : p.resolve rounds = .ok (q, t)) :
    (∀ d, p.Defines d → ∃ v, q.Becomes t d v) ∧
    (∀ d e v w, p.Defines d → p.Defines e → q.Becomes t d v → q.Becomes t e w →
      (v = w ↔ EqvGen p.Joined d e)) ∧
    (∀ d v, p.Defines d → q.Becomes t d v → t.slot? v = some d.slot ∧
      (t.kind? v = some .parameter ↔ ∃ s < p.parameters, EqvGen p.Joined ⟨.parameter s, s⟩ d)) ∧
    ∀ v < t.size, ∃ d, p.Defines d ∧ q.Becomes t d v ∧
      ∀ e w, v < w → p.Defines e → q.Becomes t e w → d.site.Before (.of p) e.site := by
  have hshape := wellShaped_of_violation hp
  obtain ⟨l, r, hreach, -, hblocks, rfl⟩ := resolve_eq_ok hr
  have hsolves := solves_of_reaching hshape hreach
  have hc : (of p (.of p)).Coherent ((of p (.of p)).webs p (.of p) r l) := coherent_webs
  have hq := rewritten_of_blocks hshape hblocks
  have hclass {d e : Definition} {m n : Nat} (hd : Definitions.Numbered p m d)
      (he : Definitions.Numbered p n e) :
      ((of p (.of p)).webs p (.of p) r l).Same m n ↔ EqvGen p.Joined d e :=
    ⟨eqvGen_of_same hshape hsolves hd he, same_of_eqvGen hshape hsolves hd he⟩
  refine ⟨?_, ?_, ?_, fun v => exists_first hc hq⟩
  · intro d hd
    obtain ⟨n, hn⟩ := exists_numbered hd
    obtain ⟨v, hv⟩ := exists_localOf? (c := (of p (.of p)).webs p (.of p) r l) hn.lt_size
    exact ⟨v, (becomes_iff hc hq hn).2 hv⟩
  · intro d e v w hd he hv hw
    obtain ⟨m, hm⟩ := exists_numbered hd
    obtain ⟨n, hn⟩ := exists_numbered he
    exact (eq_iff_same hc hq hm hn hv hw).trans (hclass hm hn)
  · intro d v hd hv
    obtain ⟨n, hn⟩ := exists_numbered hd
    obtain ⟨hslot, hkind⟩ := locals_of_becomes hc hq hn hv
    refine ⟨hslot, hkind.trans ?_⟩
    constructor
    · intro hroot
      exact ⟨_, hroot, (hclass (getElem?_parameter hroot) hn).1 (Partition.root_root _ n)⟩
    · rintro ⟨s, hs, hjoined⟩
      have hsame : _ = _ := (hclass (getElem?_parameter hs) hn).2 hjoined
      rw [← hsame]
      exact Nat.lt_of_le_of_lt (Partition.root_le _ s) hs

def regained : Proto :=
  { id := 0, parameters := 1, debugNames := [⟨1, "x", 1, 3⟩]
    blocks := [
      ⟨0, 0, 0, [.assign ⟨[.slot 1], [.global "a"], false, 0⟩], .branch (.slot 0) 1 2⟩,
      ⟨1, 1, 1, [.assign ⟨[.slot 1], [.global "b"], false, 0⟩], .always 2⟩,
      ⟨2, 2, 2, [.call (.global "f") [.slot 1] 0, .assign ⟨[.slot 1], [.global "c"], false, 0⟩, .ret [.slot 1] 0],
        .leave⟩] }

theorem resolve_classes_regained : ∃ q t, regained.resolve 5 = .ok (q, t) ∧
    t = ⟨[⟨0, "arg0", .parameter⟩, ⟨1, "slot1", .plain⟩]⟩ ∧
      EqvGen regained.Joined ⟨.target 0 0 0, 1⟩ ⟨.target 2 1 0, 1⟩ ∧
      ¬∃ s < 1, EqvGen regained.Joined ⟨.parameter s, s⟩ ⟨.target 2 1 0, 1⟩ := by
  have hr : regained.resolve 5 = .ok
      ({ id := 0, parameters := 1, debugNames := [⟨1, "x", 1, 3⟩]
         blocks := [
          ⟨0, 0, 0, [.assign ⟨[.var 1], [.global "a"], false, 0⟩], .branch (.var 0) 1 2⟩,
          ⟨1, 1, 1, [.assign ⟨[.var 1], [.global "b"], false, 0⟩], .always 2⟩,
          ⟨2, 2, 2, [.call (.global "f") [.var 1] 0, .assign ⟨[.var 1], [.global "c"], false, 0⟩, .ret [.var 1] 0],
            .leave⟩] },
        ⟨[⟨0, "arg0", .parameter⟩, ⟨1, "slot1", .plain⟩]⟩) := by cbv
  obtain ⟨-, hclass, htable, -⟩ := resolve_classes (by cbv) hr
  have hfirst : regained.Defines ⟨.target 0 0 0, 1⟩ := .target (by cbv) rfl (.head _)
  have hlast : regained.Defines ⟨.target 2 1 0, 1⟩ := .target (by cbv) rfl (.head _)
  refine ⟨_, _, hr, rfl, ?_, ?_⟩
  · exact (hclass _ _ 1 1 hfirst hlast (.target rfl rfl) (.target rfl rfl)).1 rfl
  · exact mt (htable _ 1 hlast (.target rfl rfl)).2.2 (by decide)

end Proto

end LuaLift
