import LuaLift.Proofs.Tree.Tidying

namespace LuaLift

namespace Stmt

def plainCells : Stmt → List Cell
  | assign a => a.targets.filterMap Expr.cell?
  | declare vs => vs.map (⟨.var, ·⟩)
  | _ => []

def assignedVars : Stmt → List LocalId
  | assign a => if a.declares then [] else a.targets.filterMap Expr.var?
  | _ => []

theorem allCells_eq (s : Stmt) : s.allCells = s.operands.flatMap Expr.cells ++ s.plainCells := by
  cases s <;> simp [allCells, plainCells, operands]

theorem usedVars_eq (s : Stmt) : s.usedVars = s.readVars ++ s.assignedVars := by
  cases s <;> simp [usedVars, assignedVars]

theorem count_readVars (s : Stmt) (v : LocalId) :
    s.readVars.count v = (s.operands.flatMap Expr.cells).count ⟨.var, v⟩ := by
  unfold readVars reads
  induction s.operands with
  | nil => rfl
  | cons e es ih => simp only [List.flatMap_cons, List.count_append, Expr.count_reads, ih]

theorem mem_readVars {s : Stmt} {v : LocalId} : v ∈ s.readVars ↔ ⟨.var, v⟩ ∈ s.operands.flatMap Expr.cells := by
  simp only [readVars, reads, List.mem_flatMap, Expr.mem_reads]

structure SameTargets (s s' : Stmt) : Prop where
  plain : s'.plainCells = s.plainCells
  assigned : s'.assignedVars = s.assignedVars
  declared : s'.declaredVars = s.declaredVars

theorem sameTargets_substitute (c : Cell) (s : Stmt) (r : Option Expr) : SameTargets s (s.substitute c r).1 := by
  cases s with
  | assign a =>
    have hcell := filterMap_substituteTargets (g := Expr.cell?) (fun _ _ => rfl) c a.targets r
    have hvar := filterMap_substituteTargets (g := Expr.var?) (fun _ _ => rfl) c a.targets r
    refine ⟨hcell, ?_, ?_⟩
    · simp only [substitute, assignedVars, hvar]
    · simp only [substitute, declaredVars, hvar]
  | _ => exact ⟨rfl, rfl, rfl⟩

theorem count_substitute {c : Cell} {s s' : Stmt} {e : Expr} (h : s.substitute c (some e) = (s', none)) (d : Cell) :
    (s'.operands.flatMap Expr.cells).count d + [c].count d =
      (s.operands.flatMap Expr.cells).count d + e.cells.count d := by
  have hs := substituted c s (some e)
  rw [h] at hs
  exact hs.count d

end Stmt

namespace Node

section Tally

variable {α : Type} [DecidableEq α] (h : Node → List α) (x : α)

def tally (b : Body) : Nat := ((nodesOf b).flatMap h).count x

theorem tally_append (a b : Body) : tally h x (a ++ b) = tally h x a + tally h x b := by
  rw [tally, nodesOf_append, List.flatMap_append, List.count_append, tally, tally]

theorem tally_single (n : Node) : tally h x [n] = (h n).count x + total (tally h x) n.bodies := by
  rw [tally, nodesOf, nodesOf, List.append_nil, flatMap_nodes, List.count_append]
  cases n <;> simp [bodies, tally, total]

theorem tally_nil : tally h x [] = 0 := rfl

theorem tally_cons (n : Node) (b : Body) :
    tally h x (n :: b) = (h n).count x + total (tally h x) n.bodies + tally h x b := by
  rw [← tally_single, ← tally_append, List.singleton_append]

theorem tally_stmt (s : Stmt) : tally h x [stmt s] = (h (stmt s)).count x := by
  rw [tally_single]
  rfl

theorem tally_replace {n : Node} {w : Nat} {b c : Body} (hn : n.bodies[w]? = some b)
    (hh : h (n.replace w c) = h n) : tally h x [n.replace w c] + tally h x b = tally h x [n] + tally h x c := by
  rw [tally_single, tally_single, hh]
  rcases w with _ | _ | w <;> cases n <;> cases hn <;> simp [replace, withBodies, bodies, total] <;> omega

theorem tally_le {β : Type} [DecidableEq β] {h : Node → List α} {h' : Node → List β} {x : α} {y : β}
    (hle : ∀ n, (h n).count x ≤ (h' n).count y) (b : Body) : tally h x b ≤ tally h' y b := by
  unfold tally
  induction nodesOf b with
  | nil => simp
  | cons n ns ih =>
    have := hle n
    simp only [List.flatMap_cons, List.count_append]
    omega

end Tally

section Variable

variable {v : LocalId}

theorem count_var (es : List Expr) (v : LocalId) :
    (es.filterMap Expr.var?).count v = (es.filterMap Expr.cell?).count ⟨.var, v⟩ := by
  rw [← Expr.count_cellOf?, show Expr.cellOf? .var = Expr.var? from funext Expr.cellOf?_var]

theorem count_map_var (vs : List LocalId) (v : LocalId) :
    (vs.map (⟨.var, ·⟩ : LocalId → Cell)).count ⟨.var, v⟩ = vs.count v := by
  induction vs with
  | nil => rfl
  | cons w vs ih => by_cases hw : w = v <;> simp [hw, ih]

theorem count_declaredVars_le (s : Stmt) : s.declaredVars.count v ≤ s.plainCells.count ⟨.var, v⟩ := by
  cases s with
  | assign a =>
    simp only [Stmt.declaredVars]
    split
    · exact Nat.le_of_eq (count_var a.targets v)
    · exact Nat.zero_le _
  | declare vs => exact Nat.le_of_eq (count_map_var vs v).symm
  | _ => exact Nat.le_refl _

theorem count_opened_le (n : Node) : n.opened.count v ≤ n.cells.count ⟨.var, v⟩ := by
  cases n with
  | stmt s =>
    have := count_declaredVars_le (v := v) s
    rw [cells, Stmt.allCells_eq, List.count_append]
    exact Nat.le_trans this (Nat.le_add_left _ _)
  | _ => exact Nat.zero_le _

theorem count_headerVars_le (n : Node) : n.headerVars.count v ≤ n.cells.count ⟨.var, v⟩ := by
  have := count_map_var n.headerVars v
  cases n with
  | stmt s => simp [headerVars]
  | _ =>
    simp only [cells, List.count_append]
    omega

structure Kept (v : LocalId) (b b' : Body) : Prop where
  cells : tally Node.cells ⟨.var, v⟩ b' ≤ tally Node.cells ⟨.var, v⟩ b
  opened : tally Node.opened v b' = tally Node.opened v b
  headers : tally Node.headerVars v b' = tally Node.headerVars v b
  visible : v ∈ b.flatMap Node.opened → v ∈ b'.flatMap Node.opened
  sees : ∀ seen, SeesAll v seen b → SeesAll v seen b'
  seen : tally Node.opened v b = 0 → ∀ seen, SeesAll v seen b' → SeesAll v seen b

/-- A variable that loses four of its occurrences, of which one can be a declaration by a statement. -/
structure Gone (v : LocalId) (b b' : Body) : Prop where
  cells : tally Node.cells ⟨.var, v⟩ b' + 4 ≤ tally Node.cells ⟨.var, v⟩ b
  opened : tally Node.opened v b + 3 ≤ tally Node.cells ⟨.var, v⟩ b
  headers : tally Node.headerVars v b + 4 ≤ tally Node.cells ⟨.var, v⟩ b

def KeptOrGone (v : LocalId) (k : Nat) (b b' : Body) : Prop := Kept v b b' ∨ k = 4 ∧ Gone v b b'

theorem tally_opened_le (b : Body) : tally Node.opened v b ≤ tally Node.cells ⟨.var, v⟩ b := tally_le count_opened_le b

theorem tally_headerVars_le (b : Body) : tally Node.headerVars v b ≤ tally Node.cells ⟨.var, v⟩ b :=
  tally_le count_headerVars_le b

theorem not_mem_opened {b : Body} (h : tally Node.opened v b = 0) : v ∉ b.flatMap Node.opened := by
  intro hv
  obtain ⟨n, hn, hv⟩ := List.mem_flatMap.1 hv
  exact List.count_eq_zero.1 h (List.mem_flatMap.2 ⟨n, subset_nodesOf b hn, hv⟩)

theorem Kept.refl (b : Body) : Kept v b b := ⟨Nat.le_refl _, rfl, rfl, id, fun _ h => h, fun _ _ h => h⟩

theorem Kept.trans {a b c : Body} (h : Kept v a b) (h' : Kept v b c) : Kept v a c := by
  refine ⟨Nat.le_trans h'.cells h.cells, h'.opened.trans h.opened, h'.headers.trans h.headers,
    fun hv => h'.visible (h.visible hv), fun seen hs => h'.sees seen (h.sees seen hs), fun h0 seen hs => ?_⟩
  exact h.seen h0 seen (h'.seen (h.opened.trans h0) seen hs)

theorem Kept.append {a a' b b' : Body} (ha : Kept v a a') (hb : Kept v b b') : Kept v (a ++ b) (a' ++ b') := by
  have hcells := ha.cells
  have hcells' := hb.cells
  refine ⟨?_, ?_, ?_, ?_, fun seen hs => ?_, fun h0 seen hs => ?_⟩
  · rw [tally_append, tally_append]
    omega
  · rw [tally_append, tally_append, ha.opened, hb.opened]
  · rw [tally_append, tally_append, ha.headers, hb.headers]
  · rw [List.flatMap_append, List.flatMap_append, List.mem_append, List.mem_append]
    exact Or.imp ha.visible hb.visible
  · obtain ⟨h1, h2⟩ := seesAll_append.1 hs
    refine seesAll_append.2 ⟨ha.sees _ h1, ?_⟩
    exact sees_mono.2 _ _ _ (Or.imp_right ha.visible) (hb.sees _ h2)
  · rw [tally_append, Nat.add_eq_zero_iff] at h0
    obtain ⟨h1, h2⟩ := seesAll_append.1 hs
    refine seesAll_append.2 ⟨ha.seen h0.1 _ h1, ?_⟩
    have hno : v ∉ a'.flatMap Node.opened := not_mem_opened (ha.opened.trans h0.1)
    exact sees_mono.2 _ _ _ (Or.imp_right fun hv => absurd hv hno) (hb.seen h0.2 _ h2)

theorem Kept.inside {n : Node} {w : Nat} {b b' : Body} (hn : n.bodies[w]? = some b) (h : Kept v b b') :
    Kept v [n] [n.replace w b'] := by
  have hcells := tally_replace Node.cells ⟨.var, v⟩ hn (c := b') cells_withBodies
  have hopened := tally_replace Node.opened v hn (c := b') opened_withBodies
  have hheaders := tally_replace Node.headerVars v hn (c := b') headerVars_withBodies
  have hbody {j : Nat} {c : Body} (hc : n.bodies[j]? = some c) : Kept v c (if j = w then b' else c) := by
    split
    · next hj =>
      subst hj
      rw [hn] at hc
      cases hc
      exact h
    · exact .refl c
  have hle := h.cells
  have hopened' := h.opened
  have hheaders' := h.headers
  refine ⟨by omega, by omega, by omega, fun hv => ?_, fun seen hs => ?_, fun h0 seen hs => ?_⟩
  · simpa [replace] using hv
  · rw [SeesAll, sees_iff] at hs ⊢
    obtain ⟨⟨hown, hinside, htest⟩, -⟩ := hs
    refine ⟨⟨?_, ?_, fun c e he hv => ?_⟩, trivial⟩
    · rwa [replace, ownUses_withBodies]
    · rw [replace, forall_bodies_withBodies, headerVars_withBodies]
      exact fun j c hc => (hbody hc).sees _ (hinside c (List.mem_of_getElem? hc))
    · cases n <;> cases he
      exact (htest _ _ rfl hv).imp_right (hbody (j := 0) rfl).visible
  · rw [SeesAll, sees_iff] at hs ⊢
    obtain ⟨⟨hown, hinside, htest⟩, -⟩ := hs
    rw [replace, forall_bodies_withBodies, headerVars_withBodies] at hinside
    have hzero {c : Body} (hc : c ∈ n.bodies) : tally Node.opened v c = 0 := by
      refine List.count_eq_zero.2 fun hv => ?_
      refine List.count_eq_zero.1 h0 ?_
      rw [nodesOf, nodesOf, List.append_nil, flatMap_nodes]
      exact List.mem_append_right _ (List.mem_flatMap.2 ⟨c, hc, hv⟩)
    refine ⟨⟨?_, fun c hc => ?_, fun c e he hv => ?_⟩, trivial⟩
    · rwa [replace, ownUses_withBodies] at hown
    · obtain ⟨j, hj⟩ := List.mem_iff_getElem?.1 hc
      exact (hbody hj).seen (hzero hc) _ (hinside j c hj)
    -- An `until` sees a variable that the body opens only if some body opens it, and none does.
    · subst he
      refine .inl ((htest _ e rfl hv).resolve_right fun hv' => ?_)
      exact not_mem_opened ((hbody (j := 0) rfl).opened.trans (hzero (.head _))) hv'

theorem Gone.trans {a b c : Body} (h : Gone v a b)
    (h' : tally Node.cells ⟨.var, v⟩ c ≤ tally Node.cells ⟨.var, v⟩ b) : Gone v a c :=
  ⟨Nat.le_trans (Nat.add_le_add_right h' 4) h.cells, h.opened, h.headers⟩

theorem Kept.trans_gone {a b c : Body} (h : Kept v a b) (h' : Gone v b c) : Gone v a c where
  cells := Nat.le_trans h'.cells h.cells
  opened := h.opened ▸ Nat.le_trans h'.opened h.cells
  headers := h.headers ▸ Nat.le_trans h'.headers h.cells

theorem Gone.around {b b' : Body} (x y : Body) (h : Gone v b b') : Gone v (x ++ b ++ y) (x ++ b' ++ y) := by
  have hcells := h.cells
  have hopened := h.opened
  have hheaders := h.headers
  have hx := tally_opened_le (v := v) x
  have hy := tally_opened_le (v := v) y
  have hx' := tally_headerVars_le (v := v) x
  have hy' := tally_headerVars_le (v := v) y
  refine ⟨?_, ?_, ?_⟩ <;> simp only [tally_append] <;> omega

theorem Gone.inside {n : Node} {w : Nat} {b b' : Body} (hn : n.bodies[w]? = some b) (h : Gone v b b') :
    Gone v [n] [n.replace w b'] := by
  have hreplaced := tally_replace Node.cells ⟨.var, v⟩ hn (c := b') cells_withBodies
  have hrest := tally_replace Node.cells ⟨.var, v⟩ hn (c := []) cells_withBodies
  have hopened := tally_replace Node.opened v hn (c := []) opened_withBodies
  have hheaders := tally_replace Node.headerVars v hn (c := []) headerVars_withBodies
  have hle := tally_opened_le (v := v) [n.replace w []]
  have hle' := tally_headerVars_le (v := v) [n.replace w []]
  rw [tally_nil] at hrest hopened hheaders
  have h1 := h.cells
  have h2 := h.opened
  have h3 := h.headers
  exact ⟨by omega, by omega, by omega⟩

theorem KeptOrGone.cells {k : Nat} {b b' : Body} (h : KeptOrGone v k b b') :
    tally Node.cells ⟨.var, v⟩ b' ≤ tally Node.cells ⟨.var, v⟩ b := by
  rcases h with h | ⟨-, h⟩
  · exact h.cells
  · exact Nat.le_trans (Nat.le_add_right _ 4) h.cells

theorem congruence_keptOrGone (v : LocalId) (k : Nat) : Congruence (KeptOrGone v k) where
  refl b := .inl (.refl b)
  trans {a b c} h h' := by
    rcases h with h | ⟨hk, h⟩
    · exact h'.imp h.trans (And.imp_right h.trans_gone)
    · exact .inr ⟨hk, h.trans h'.cells⟩
  around {b b'} x y h := h.imp (fun h => ((Kept.refl x).append h).append (.refl y)) (And.imp_right (Gone.around x y))
  inside {n w b b'} hn h := h.imp (Kept.inside hn) (And.imp_right (Gone.inside hn))

theorem mem_vars {e : Expr} : v ∈ e.vars ↔ ⟨.var, v⟩ ∈ e.cells := Expr.mem_reads

theorem opened_single (u : LocalId) (e : Expr) (d : Bool) (l : Nat) :
    (stmt (.assign ⟨[.var u], [e], d, l⟩)).opened = if d then [u] else [] := by
  cases d <;> rfl

theorem cells_single (u : LocalId) (e : Expr) (d : Bool) (l : Nat) :
    (stmt (.assign ⟨[.var u], [e], d, l⟩)).cells = e.cells ++ [⟨.var, u⟩] := by
  simp [Node.cells, Stmt.allCells, Stmt.operands, Expr.targetOperands, Expr.cell?]

theorem sees_single {u : LocalId} {e : Expr} {d : Bool} {l : Nat} {seen : Prop} :
    Sees v seen (stmt (.assign ⟨[.var u], [e], d, l⟩)) ↔ (⟨.var, v⟩ ∈ e.cells → seen) ∧
      (v = u → (stmt (.assign ⟨[.var u], [e], d, l⟩)).opened = [] → seen) := by
  rw [opened_single]
  cases d <;> simp [Stmt.usedVars, Stmt.readVars, Stmt.reads, Stmt.operands, Expr.targetOperands, Expr.var?,
    Expr.mem_reads, or_imp]

theorem cells_ifThen (c : Expr) (b : Body) : (ifThen c b).cells = c.cells := by
  simp [Node.cells, headerVars]

theorem cells_ifElse (c : Expr) (a b : Body) : (ifElse c a b).cells = c.cells := by
  simp [Node.cells, headerVars]

namespace Choice

variable {u : LocalId} {first second : Node} {e : Expr} (h : Choice u first second e)
include h

theorem not_mem : ⟨.var, u⟩ ∉ e.cells := by
  obtain ⟨op, d, l, l', -, ha, hb⟩ := h
  rw [Expr.cells_binary, List.mem_append]
  exact fun hu => hu.elim ha hb

theorem count_opened : first.opened.count v ≤ [u].count v := by
  obtain ⟨op, d, l, l', -, -, -⟩ := h
  rw [opened_single]
  cases d <;> simp

theorem tally_opened : tally opened v [first, second] = first.opened.count v := by
  obtain ⟨op, d, l, l', -, -, -⟩ := h
  simp only [tally_cons, tally_nil, bodies, total, Nat.add_zero]
  rfl

theorem tally_headerVars : tally headerVars v [first, second] = 0 := by
  obtain ⟨op, d, l, l', -, -, -⟩ := h
  rfl

theorem tally_cells (c : Cell) :
    tally cells c [first, second] = e.cells.count c + 3 * [(⟨.var, u⟩ : Cell)].count c := by
  obtain ⟨op, d, l, l', hc, -, -⟩ := h
  simp only [tally_cons, tally_nil, bodies, total, cells_single, cells_ifThen, hc, Expr.cells_binary,
    List.count_append]
  omega

theorem cells_setValue : (first.setValue e).cells = e.cells ++ [⟨.var, u⟩] := by
  obtain ⟨op, d, l, l', -, -, -⟩ := h
  exact cells_single _ _ _ _

theorem opened_setValue : (first.setValue e).opened = first.opened := by
  obtain ⟨op, d, l, l', -, -, -⟩ := h
  rfl

theorem sees {seen : Prop} : SeesAll v seen [first, second] ↔
    (⟨.var, v⟩ ∈ e.cells → seen) ∧ (v = u → first.opened = [] → seen) := by
  obtain ⟨op, d, l, l', hc, ha, hb⟩ := h
  rw [Expr.cells_binary, List.mem_append, or_imp]
  constructor
  · rintro ⟨hfirst, ⟨-, hinner, -⟩, -⟩
    obtain ⟨h1, h2⟩ := sees_single.1 hfirst
    refine ⟨⟨h1, fun hv => ((sees_single.1 hinner).1 hv).resolve_right fun ho => ?_⟩, h2⟩
    rw [opened_single] at ho
    cases d
    · cases ho
    · obtain rfl := List.mem_singleton.1 ho
      exact hb hv
  · rintro ⟨⟨h1, h2⟩, h3⟩
    rename_i a _
    have hseen (hv : v = u) : seen ∨ v ∈ (stmt (.assign ⟨[.var u], [a], d, l⟩)).opened := by
      cases d
      · exact .inl (h3 hv rfl)
      · exact .inr (List.mem_singleton.2 hv)
    refine ⟨sees_single.2 ⟨h1, h3⟩, ⟨fun hv => hseen ?_, sees_single.2 ⟨fun hv => .inl (h2 hv), ?_⟩, trivial⟩, trivial⟩
    · rw [mem_vars, hc] at hv
      simpa using hv
    · exact fun hv _ => hseen hv

theorem sees_setValue {seen : Prop} : SeesAll v seen [first.setValue e] ↔
    (⟨.var, v⟩ ∈ e.cells → seen) ∧ (v = u → first.opened = [] → seen) := by
  obtain ⟨op, d, l, l', -, -, -⟩ := h
  rw [SeesAll, SeesAll, and_true]
  exact sees_single

theorem tally_setValue {α : Type} [DecidableEq α] (g : Node → List α) (x : α) :
    tally g x [first.setValue e] = (g (first.setValue e)).count x := by
  obtain ⟨op, d, l, l', -, -, -⟩ := h
  rw [tally_single]
  rfl

theorem kept : Kept v [first, second] [first.setValue e] := by
  refine ⟨?_, ?_, ?_, fun hv => ?_, fun seen hs => h.sees_setValue.2 (h.sees.1 hs),
    fun _ seen hs => h.sees.2 (h.sees_setValue.1 hs)⟩
  · rw [h.tally_cells, h.tally_setValue, h.cells_setValue, List.count_append]
    omega
  · rw [h.tally_opened, h.tally_setValue, h.opened_setValue]
  · obtain ⟨op, d, l, l', -, -, -⟩ := h
    rfl
  · obtain ⟨op, d, l, l', -, -, -⟩ := h
    exact hv

theorem tally_take {s s' : Stmt} (hs : s.substitute ⟨.var, u⟩ (some e) = (s', none)) (c : Cell) :
    tally cells c [stmt s'] + 4 * [(⟨.var, u⟩ : Cell)].count c = tally cells c [first, second, stmt s] := by
  have hcount := Stmt.count_substitute hs c
  have hsame := Stmt.sameTargets_substitute ⟨.var, u⟩ s (some e)
  rw [hs] at hsame
  rw [show [first, second, stmt s] = [first, second] ++ [stmt s] from rfl, tally_append, h.tally_cells, tally_stmt,
    tally_stmt, cells, cells, Stmt.allCells_eq, Stmt.allCells_eq, hsame.plain, List.count_append, List.count_append]
  omega

theorem gone {s s' : Stmt} (hr : s.readVars.count u = 1) (hs : s.substitute ⟨.var, u⟩ (some e) = (s', none)) :
    Gone u [first, second, stmt s] [stmt s'] := by
  have hcells := h.tally_take hs ⟨.var, u⟩
  have hone : [(⟨.var, u⟩ : Cell)].count ⟨.var, u⟩ = 1 := by simp
  have hone' : [u].count u = 1 := by simp
  have hdeclared := h.count_opened (v := u)
  have hdeclared' := count_declaredVars_le (v := u) s
  have hbefore : tally cells ⟨.var, u⟩ [first, second, stmt s] = 4 + s.plainCells.count ⟨.var, u⟩ := by
    rw [show [first, second, stmt s] = [first, second] ++ [stmt s] from rfl, tally_append, h.tally_cells, tally_stmt,
      cells, Stmt.allCells_eq, List.count_append, ← Stmt.count_readVars, hr, hone,
      List.count_eq_zero.2 h.not_mem]
    omega
  have hopened : tally opened u [first, second, stmt s] = first.opened.count u + s.declaredVars.count u := by
    rw [show [first, second, stmt s] = [first, second] ++ [stmt s] from rfl, tally_append, h.tally_opened, tally_stmt,
      opened]
  have hheaders : tally headerVars u [first, second, stmt s] = 0 := by
    rw [show [first, second, stmt s] = [first, second] ++ [stmt s] from rfl, tally_append, h.tally_headerVars,
      tally_stmt]
    rfl
  exact ⟨by omega, by omega, by omega⟩

theorem kept_take {s s' : Stmt} (hs : s.substitute ⟨.var, u⟩ (some e) = (s', none)) (hv : v ≠ u) :
    Kept v [first, second, stmt s] [stmt s'] := by
  have hcells := h.tally_take hs ⟨.var, v⟩
  have hcount := Stmt.count_substitute hs ⟨.var, v⟩
  have hsame := Stmt.sameTargets_substitute ⟨.var, u⟩ s (some e)
  rw [hs] at hsame
  have hzero : [(⟨.var, u⟩ : Cell)].count ⟨.var, v⟩ = 0 := by simp [Ne.symm hv]
  have hnone : [u].count v = 0 := by simp [Ne.symm hv]
  have hfirst : first.opened.count v = 0 := Nat.le_zero.1 (hnone ▸ h.count_opened)
  have hno : v ∉ [first, second].flatMap opened := not_mem_opened (by rw [h.tally_opened, hfirst])
  have hread : v ∈ s'.readVars ↔ v ∈ s.readVars ∨ ⟨.var, v⟩ ∈ e.cells := by
    rw [Stmt.mem_readVars, Stmt.mem_readVars, ← List.count_pos_iff, ← List.count_pos_iff, ← List.count_pos_iff]
    omega
  have hsplit {seen : Prop} : SeesAll v seen ([first, second] ++ [stmt s]) ↔
      SeesAll v seen [first, second] ∧ (v ∈ s.usedVars → seen) := by
    rw [seesAll_append]
    refine and_congr_right fun _ => ?_
    rw [SeesAll, SeesAll, Sees, and_true]
    exact imp_congr_right fun _ => or_iff_left hno
  have hsees {seen : Prop} : SeesAll v seen ([first, second] ++ [stmt s]) ↔ SeesAll v seen [stmt s'] := by
    rw [hsplit, h.sees, SeesAll, SeesAll, Sees, and_true, Stmt.usedVars_eq s', Stmt.usedVars_eq s, hsame.assigned,
      List.mem_append, List.mem_append, hread, or_imp, or_imp, or_imp]
    constructor
    · rintro ⟨⟨h1, -⟩, h2, h3⟩
      exact ⟨⟨h2, h1⟩, h3⟩
    · rintro ⟨⟨h2, h1⟩, h3⟩
      exact ⟨⟨h1, fun he => absurd he hv⟩, h2, h3⟩
  refine ⟨by omega, ?_, ?_, fun ho => ?_, fun seen => hsees.1, fun _ seen => hsees.2⟩
  · rw [show [first, second, stmt s] = [first, second] ++ [stmt s] from rfl, tally_append, h.tally_opened, hfirst,
      tally_stmt, tally_stmt, Nat.zero_add, opened, opened, hsame.declared]
  · rw [show [first, second, stmt s] = [first, second] ++ [stmt s] from rfl, tally_append, h.tally_headerVars,
      tally_stmt, tally_stmt]
    rfl
  · rw [show [first, second, stmt s] = [first, second] ++ [stmt s] from rfl, List.flatMap_append,
      List.mem_append] at ho
    have ho := ho.resolve_left hno
    rwa [List.flatMap_singleton, opened, ← hsame.declared, ← opened, ← List.flatMap_singleton opened] at ho

end Choice

theorem cells_withTest {n : Node} {c c' : Expr} (h : n.condition? = some c) (hc : c'.cells = c.cells) :
    (n.withTest c').cells = n.cells := by
  cases n <;> cases h <;> simp [withTest, cells, headerVars, hc]

theorem bodies_withTest (n : Node) (c : Expr) : (n.withTest c).bodies = n.bodies := by
  cases n <;> rfl

theorem opened_withTest (n : Node) (c : Expr) : (n.withTest c).opened = n.opened := by
  cases n <;> rfl

theorem headerVars_withTest (n : Node) (c : Expr) : (n.withTest c).headerVars = n.headerVars := by
  cases n <;> rfl

theorem sees_withTest {n : Node} {c c' : Expr} (h : n.condition? = some c) (hc : c'.cells = c.cells)
    {seen : Prop} : Sees v seen (n.withTest c') ↔ Sees v seen n := by
  have hvars : v ∈ c'.vars ↔ v ∈ c.vars := by rw [mem_vars, mem_vars, hc]
  cases n <;> cases h <;> simp only [withTest, Sees, hvars]

theorem Rule.tally_le {uses : List LocalId} {b b' : Body} (h : Rule uses b b') (c : Cell) :
    tally cells c b' ≤ tally cells c b := by
  cases h with
  | choose h =>
    rw [h.tally_cells, h.tally_setValue, h.cells_setValue, List.count_append]
    omega
  | take h _ _ hs =>
    have := h.tally_take hs c
    omega
  | hoist =>
    simp only [tally_cons, tally_nil, bodies, total, cells_ifThen, cells_ifElse]
    omega
  | test h hc =>
    refine Nat.le_of_eq ?_
    rw [tally_single, tally_single, cells_withTest h hc, bodies_withTest]
  | drop =>
    simp only [tally_cons, tally_nil, bodies, total, cells_ifThen, cells_ifElse]
    omega
  | swap =>
    simp only [tally_cons, tally_nil, bodies, total, cells_ifElse]
    omega

theorem Rule.keptOrGone {uses : List LocalId} {b b' : Body} (h : Rule uses b b') (v : LocalId) :
    KeptOrGone v (uses.count v) b b' := by
  have hcells := h.tally_le ⟨.var, v⟩
  cases h with
  | choose h => exact .inl h.kept
  | @take u _ _ _ _ _ h hu hr hs =>
    by_cases hv : v = u
    · subst hv
      exact .inr ⟨hu, h.gone hr hs⟩
    · exact .inl (h.kept_take hs hv)
  | @hoist c a b ha =>
    have hsees {seen : Prop} : SeesAll v seen (ifThen c a :: b) ↔ SeesAll v seen [ifElse c a b] := by
      simp [opened, and_assoc]
    refine .inl ⟨hcells, ?_, ?_, (fun ho => by cases ho), fun seen => hsees.2, fun _ seen => hsees.1⟩
    · simp only [tally_cons, tally_nil, bodies, total]
      simp [opened]
    · simp only [tally_cons, tally_nil, bodies, total]
      simp [headerVars]
  | @test n c c' h hc =>
    have hsees {seen : Prop} : SeesAll v seen [n.withTest c'] ↔ SeesAll v seen [n] := by
      rw [SeesAll, SeesAll, sees_withTest h hc, SeesAll, SeesAll]
    refine .inl ⟨hcells, ?_, ?_, fun ho => ?_, fun seen => hsees.2, fun _ seen => hsees.1⟩
    · rw [tally_single, tally_single, opened_withTest, bodies_withTest]
    · rw [tally_single, tally_single, headerVars_withTest, bodies_withTest]
    · simpa [opened_withTest] using ho
  | drop c a =>
    have hsees {seen : Prop} : SeesAll v seen [ifThen c a] ↔ SeesAll v seen [ifElse c a []] := by simp
    refine .inl ⟨hcells, ?_, ?_, id, fun seen => hsees.2, fun _ seen => hsees.1⟩
    · simp only [tally_cons, tally_nil, bodies, total]
      rfl
    · simp only [tally_cons, tally_nil, bodies, total]
      rfl
  | swap c a b =>
    have hsees {seen : Prop} : SeesAll v seen [ifElse c b a] ↔ SeesAll v seen [ifElse c a b] := by
      simp [and_comm]
    refine .inl ⟨hcells, ?_, ?_, id, fun seen => hsees.2, fun _ seen => hsees.1⟩
    · simp only [tally_cons, tally_nil, bodies, total]
      simp [opened, Nat.add_comm]
    · simp only [tally_cons, tally_nil, bodies, total]
      simp [headerVars, Nat.add_comm]

theorem count_definedVars (n : Node) :
    (n.definedVars ++ n.expressions.flatMap (·.vars)).count v = n.cells.count ⟨.var, v⟩ := by
  have hreads (es : List Expr) : (es.flatMap (·.vars)).count v = (es.flatMap Expr.cells).count ⟨.var, v⟩ := by
    induction es with
    | nil => rfl
    | cons e es ih => simp only [List.flatMap_cons, List.count_append, Expr.vars, Expr.count_reads, ← ih]
  rw [List.count_append, hreads, Nat.add_comm]
  cases n with
  | stmt s =>
    rw [cells, Stmt.allCells_eq, List.count_append, expressions, Nat.add_left_cancel_iff]
    cases s with
    | assign a => exact Expr.count_cellOf? .var a.targets v
    | declare vs => exact (count_map_var vs v).symm
    | _ => rfl
  | _ =>
    simp only [cells, List.count_append, count_map_var]
    rfl

theorem count_occurrences (b : Body) : (occurrences b).count v = tally cells ⟨.var, v⟩ b := by
  unfold occurrences tally
  induction nodesOf b with
  | nil => rfl
  | cons n ns ih =>
    have := count_definedVars (v := v) n
    simp only [List.flatMap_cons, List.count_append] at this ⊢
    omega

theorem kept_or_gone (v : LocalId) (b : Body) : Kept v b (tidy b).1 ∨
    tally cells ⟨.var, v⟩ (tidy b).1 = 0 ∧ tally opened v b ≤ 1 ∧ tally headerVars v b = 0 := by
  refine tidy_induct (R := fun b b' => Kept v b b' ∨
    tally cells ⟨.var, v⟩ b' = 0 ∧ tally opened v b ≤ 1 ∧ tally headerVars v b = 0) (fun b => .inl (.refl b)) ?_ ?_ b
  · rintro a b c (h | ⟨h0, h1, h2⟩) h'
    · rcases h' with h' | ⟨h0, h1, h2⟩
      · exact .inl (h.trans h')
      · exact .inr ⟨h0, h.opened ▸ h1, h.headers ▸ h2⟩
    · refine .inr ⟨?_, h1, h2⟩
      rcases h' with h' | ⟨h0', -, -⟩
      · have := h'.cells
        omega
      · exact h0'
  · intro b
    rcases (congruence_keptOrGone v _).tidyRound (fun h => h.keptOrGone v) with h | ⟨hk, h⟩
    · exact .inl h
    · rw [count_occurrences] at hk
      have h1 := h.cells
      have h2 := h.opened
      have h3 := h.headers
      exact .inr ⟨by omega, by omega, by omega⟩

theorem cells_tidy (b : Body) : (nodesOf (tidy b).1).flatMap cells ⊆ (nodesOf b).flatMap cells := by
  have hle : ∀ c, tally cells c (tidy b).1 ≤ tally cells c b := by
    refine tidy_induct (R := fun b b' => ∀ c, tally cells c b' ≤ tally cells c b) (fun _ _ => Nat.le_refl _)
      (fun h h' c => Nat.le_trans (h' c) (h c)) (fun b => ?_) b
    refine Congruence.tidyRound ⟨fun _ _ => Nat.le_refl _, fun h h' c => Nat.le_trans (h' c) (h c), ?_, ?_⟩
      fun h c => h.tally_le c
    · intro b b' x y h c
      have := h c
      simp only [tally_append]
      omega
    · intro n w b b' hn h c
      have := h c
      have := tally_replace cells c hn (c := b') cells_withBodies
      omega
  intro c hc
  exact List.count_pos_iff.1 (Nat.lt_of_lt_of_le (List.count_pos_iff.2 hc) (hle c))

end Variable

end Node

end LuaLift
