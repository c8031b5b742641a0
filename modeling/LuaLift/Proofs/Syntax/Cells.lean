import LuaLift.Syntax.Expr

namespace LuaLift

namespace Expr

def cells (e : Expr) : List Cell := e.nodes.filterMap cell?

theorem mem_reads {kind : CellKind} {e : Expr} {i : Nat} : i ∈ e.reads kind ↔ ⟨kind, i⟩ ∈ e.cells := by
  simp only [reads, cells, List.mem_filterMap, cellOf?, Option.bind_eq_some_iff]
  constructor
  · rintro ⟨n, hn, ⟨k, j⟩, hc, h⟩
    split at h
    · next hk => cases h; cases hk; exact ⟨n, hn, hc⟩
    · cases h
  · rintro ⟨n, hn, hc⟩
    exact ⟨n, hn, _, hc, if_pos rfl⟩

theorem nodesList_eq (es : List Expr) : nodesList es = es.flatMap nodes := by
  induction es with
  | nil => rfl
  | cons e es ih => rw [nodesList, ih, List.flatMap_cons]

mutual

def mapCells (f : Cell → Cell) : Expr → Expr
  | slot s => ofCell (f ⟨.slot, s⟩)
  | var v => ofCell (f ⟨.var, v⟩)
  | upvalue n => upvalue n
  | global g => global g
  | constant c => constant c
  | vararg => vararg
  | index t k => index (t.mapCells f) (k.mapCells f)
  | unary op e => unary op (e.mapCells f)
  | binary op a b => binary op (a.mapCells f) (b.mapCells f)
  | call g as => call (g.mapCells f) (mapCellsList f as)
  | closure p cs => closure p (mapCellsList f cs)
  | table as rs => table (mapCellsList f as) (mapCellsRecords f rs)

def mapCellsList (f : Cell → Cell) : List Expr → List Expr
  | [] => []
  | e :: es => e.mapCells f :: mapCellsList f es

def mapCellsRecords (f : Cell → Cell) : List (Expr × Expr) → List (Expr × Expr)
  | [] => []
  | (k, v) :: rs => (k.mapCells f, v.mapCells f) :: mapCellsRecords f rs

end

def form (e : Expr) : Expr := e.mapCells fun _ => ⟨.slot, 0⟩

theorem bindSlotsList_eq_map (f : Slot → Expr) (es : List Expr) :
    bindSlotsList f es = es.map (bindSlots f) := by
  induction es with
  | nil => rfl
  | cons e es ih => simp [bindSlotsList, ih]

@[simp] theorem cell?_ofCell (c : Cell) : (ofCell c).cell? = some c := by
  obtain ⟨_ | _, i⟩ := c <;> rfl

theorem ofCell_of_cell? {e : Expr} {c : Cell} (h : e.cell? = some c) : e = ofCell c := by
  cases e <;> cases h <;> rfl

@[simp] theorem nodes_ofCell (c : Cell) : (ofCell c).nodes = [ofCell c] := by
  obtain ⟨_ | _, i⟩ := c <;> rfl

@[simp] theorem mapCells_ofCell (f : Cell → Cell) (c : Cell) : (ofCell c).mapCells f = ofCell (f c) := by
  obtain ⟨_ | _, i⟩ := c <;> rfl

mutual

theorem cells_mapCells (f : Cell → Cell) : (e : Expr) →
    (e.mapCells f).nodes.filterMap cell? = (e.nodes.filterMap cell?).map f
  | slot s => by
    have : ((slot s).mapCells f).nodes.filterMap cell? = [f ⟨.slot, s⟩] := by
      simp [mapCells]
    exact this
  | var v => by
    have : ((var v).mapCells f).nodes.filterMap cell? = [f ⟨.var, v⟩] := by
      simp [mapCells]
    exact this
  | upvalue n | global g | constant c | vararg => by simp [List.filterMap_cons, mapCells, nodes, cell?]
  | index t k => by simp [List.filterMap_cons, mapCells, nodes, cell?, cells_mapCells f t, cells_mapCells f k]
  | unary op e => by simp [List.filterMap_cons, mapCells, nodes, cell?, cells_mapCells f e]
  | binary op a b => by simp [List.filterMap_cons, mapCells, nodes, cell?, cells_mapCells f a, cells_mapCells f b]
  | call g as => by simp [List.filterMap_cons, mapCells, nodes, cell?, cells_mapCells f g, cells_mapCellsList f as]
  | closure p cs => by simp [List.filterMap_cons, mapCells, nodes, cell?, cells_mapCellsList f cs]
  | table as rs => by
    simp [List.filterMap_cons, mapCells, nodes, cell?, cells_mapCellsList f as, cells_mapCellsRecords f rs]

theorem cells_mapCellsList (f : Cell → Cell) : (es : List Expr) →
    (nodesList (mapCellsList f es)).filterMap cell? = ((nodesList es).filterMap cell?).map f
  | [] => rfl
  | e :: es => by simp [mapCellsList, nodesList, cells_mapCells f e, cells_mapCellsList f es]

theorem cells_mapCellsRecords (f : Cell → Cell) : (rs : List (Expr × Expr)) →
    (nodesRecords (mapCellsRecords f rs)).filterMap cell? = ((nodesRecords rs).filterMap cell?).map f
  | [] => rfl
  | (k, v) :: rs => by
    simp [mapCellsRecords, nodesRecords, cells_mapCells f k, cells_mapCells f v,
      cells_mapCellsRecords f rs]

end

mutual

theorem mapCells_mapCells (f g : Cell → Cell) : (e : Expr) →
    (e.mapCells f).mapCells g = e.mapCells fun c => g (f c)
  | slot s => by simp [mapCells]
  | var v => by simp [mapCells]
  | upvalue n | global g | constant c | vararg => rfl
  | index t k => by simp [mapCells, mapCells_mapCells f g t, mapCells_mapCells f g k]
  | unary op e => by simp [mapCells, mapCells_mapCells f g e]
  | binary op a b => by simp [mapCells, mapCells_mapCells f g a, mapCells_mapCells f g b]
  | call h as => by simp [mapCells, mapCells_mapCells f g h, mapCellsList_mapCellsList f g as]
  | closure p cs => by simp [mapCells, mapCellsList_mapCellsList f g cs]
  | table as rs => by
    simp [mapCells, mapCellsList_mapCellsList f g as, mapCellsRecords_mapCellsRecords f g rs]

theorem mapCellsList_mapCellsList (f g : Cell → Cell) : (es : List Expr) →
    mapCellsList g (mapCellsList f es) = mapCellsList (fun c => g (f c)) es
  | [] => rfl
  | e :: es => by simp [mapCellsList, mapCells_mapCells f g e, mapCellsList_mapCellsList f g es]

theorem mapCellsRecords_mapCellsRecords (f g : Cell → Cell) : (rs : List (Expr × Expr)) →
    mapCellsRecords g (mapCellsRecords f rs) = mapCellsRecords (fun c => g (f c)) rs
  | [] => rfl
  | (k, v) :: rs => by
    simp [mapCellsRecords, mapCells_mapCells f g k, mapCells_mapCells f g v,
      mapCellsRecords_mapCellsRecords f g rs]

end

theorem form_mapCells (f : Cell → Cell) (e : Expr) : (e.mapCells f).form = e.form :=
  mapCells_mapCells f _ e

def slotsTo (f : Slot → Cell) (c : Cell) : Cell :=
  match c with
  | ⟨.slot, s⟩ => f s
  | c => c

mutual

theorem bindSlots_eq_mapCells (f : Slot → Cell) : (e : Expr) →
    e.bindSlots (fun s => ofCell (f s)) = e.mapCells (slotsTo f)
  | slot s => rfl
  | var v => rfl
  | upvalue n | global g | constant c | vararg => rfl
  | index t k => by simp [bindSlots, mapCells, bindSlots_eq_mapCells f t, bindSlots_eq_mapCells f k]
  | unary op e => by simp [bindSlots, mapCells, bindSlots_eq_mapCells f e]
  | binary op a b => by
    simp [bindSlots, mapCells, bindSlots_eq_mapCells f a, bindSlots_eq_mapCells f b]
  | call h as => by simp [bindSlots, mapCells, bindSlots_eq_mapCells f h, bindSlotsList_eq_mapCells f as]
  | closure p cs => by simp [bindSlots, mapCells, bindSlotsList_eq_mapCells f cs]
  | table as rs => by
    simp [bindSlots, mapCells, bindSlotsList_eq_mapCells f as, bindSlotsRecords_eq_mapCells f rs]

theorem bindSlotsList_eq_mapCells (f : Slot → Cell) : (es : List Expr) →
    bindSlotsList (fun s => ofCell (f s)) es = mapCellsList (slotsTo f) es
  | [] => rfl
  | e :: es => by
    simp [bindSlotsList, mapCellsList, bindSlots_eq_mapCells f e, bindSlotsList_eq_mapCells f es]

theorem bindSlotsRecords_eq_mapCells (f : Slot → Cell) : (rs : List (Expr × Expr)) →
    bindSlotsRecords (fun s => ofCell (f s)) rs = mapCellsRecords (slotsTo f) rs
  | [] => rfl
  | (k, v) :: rs => by
    simp [bindSlotsRecords, mapCellsRecords, bindSlots_eq_mapCells f k, bindSlots_eq_mapCells f v,
      bindSlotsRecords_eq_mapCells f rs]

end

theorem cells_bindSlots (f : Slot → Cell) (e : Expr) :
    (e.bindSlots fun s => ofCell (f s)).cells = e.cells.map (slotsTo f) := by
  rw [bindSlots_eq_mapCells]
  exact cells_mapCells _ e

theorem form_bindSlots (f : Slot → Cell) (e : Expr) :
    (e.bindSlots fun s => ofCell (f s)).form = e.form := by
  rw [bindSlots_eq_mapCells, form_mapCells]

end Expr

end LuaLift
