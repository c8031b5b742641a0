import LuaLift.Proofs.Slots.Store
import LuaLift.Proofs.Slots.Webs

namespace LuaLift.Definitions

variable {ds : Definitions} {c : Partition} {p : Proto}

theorem mem_roots {d : Nat} : d ∈ ds.roots c ↔ d < ds.size ∧ c.root d = d := by
  simp [roots]

theorem root_mem_roots {d : Nat} (h : d < ds.size) : c.root d ∈ ds.roots c :=
  mem_roots.2 ⟨Nat.lt_of_le_of_lt (c.root_le d) h, c.root_root d⟩

theorem exists_localOf? {d : Nat} (h : d < ds.size) : ∃ v, ds.localOf? c d = some v := by
  cases hv : ds.localOf? c d with
  | some v => exact ⟨v, rfl⟩
  | none => exact absurd (root_mem_roots h) (List.idxOf?_eq_none_iff.1 hv)

theorem roots_of_localOf? {d v : Nat} (h : ds.localOf? c d = some v) :
    (ds.roots c)[v]? = some (c.root d) := by
  obtain ⟨hv, he, -⟩ := List.findIdx?_eq_some_iff_getElem.1 h
  rw [List.getElem?_eq_getElem hv]
  simpa using he

theorem localOf?_eq {d e v : Nat} (h : ds.localOf? c d = some v) (h' : ds.localOf? c e = some v) :
    c.Same d e :=
  Option.some.inj ((roots_of_localOf? h).symm.trans (roots_of_localOf? h'))

theorem slot?_of_localOf? {d e v : Nat} (hc : ds.Coherent c) (h : ds.localOf? c d = some v)
    (h' : ds.localOf? c e = some v) : ds.slot? d = ds.slot? e := by
  have hroot : c.root d = c.root e := localOf?_eq h h'
  rw [← hc.slot d, hroot, hc.slot]

theorem localOf?_of_same {d e : Nat} (h : c.Same d e) : ds.localOf? c d = ds.localOf? c e := by
  unfold localOf?
  rw [h]

theorem getElem?_filterMap_of_isSome {α β : Type} {g : α → Option β} {l : List α}
    (h : ∀ a ∈ l, (g a).isSome = true) (i : Nat) : (l.filterMap g)[i]? = l[i]?.bind g := by
  induction l generalizing i with
  | nil => simp
  | cons a l ih =>
    obtain ⟨b, hb⟩ := Option.isSome_iff_exists.1 (h a (.head _))
    rw [List.filterMap_cons_some hb]
    cases i with
    | zero => simp [hb]
    | succ i => simpa using ih (fun a' ha' => h a' (.tail _ ha')) i

theorem get?_locals {d v : Nat} (hc : ds.Coherent c) {x : Slot} (hx : ds.slot? d = some x)
    (h : ds.localOf? c d = some v) : ∃ earlier,
      (ds.locals p c).get? v = some (ds.localOfRoot p (c.root d) x earlier) := by
  have hsome : ∀ e ∈ ds.roots c, ((ds.slot? e).map (e, ·)).isSome = true := by
    intro e he
    obtain ⟨y, hy⟩ := exists_slot? (mem_roots.1 he).1
    simp [hy]
  unfold locals Locals.get?
  rw [List.getElem?_map, List.getElem?_zipIdx, getElem?_filterMap_of_isSome hsome, roots_of_localOf? h]
  simp only [Option.bind_some, hc.slot, hx, Option.map_some]
  exact ⟨_, rfl⟩

@[simp] theorem slot_localOfRoot (d : Nat) (x : Slot) (n : Nat) : (ds.localOfRoot p d x n).slot = x := by
  unfold localOfRoot
  split <;> rfl

theorem kind_localOfRoot (d : Nat) (x : Slot) (n : Nat) :
    (ds.localOfRoot p d x n).kind = .parameter ↔ ds.isParameter d = true := by
  unfold localOfRoot
  split <;> simp_all

def readCell (ds : Definitions) (c : Partition) (state : NatSet) (x : Slot) : Cell :=
  match (ds.ofSlot state x).head?.bind (ds.localOf? c) with
  | some v => ⟨.var, v⟩
  | none => ⟨.slot, x⟩

theorem read_eq (state : NatSet) : ds.read c state = fun x => Expr.ofCell (ds.readCell c state x) := by
  funext x
  unfold read readCell
  cases (ds.ofSlot state x).head?.bind (ds.localOf? c) <;> rfl

variable {V : Type}

/-- The last definition of each slot is among those of a set, and its variable holds what the slot holds;
or the slot is undefined, and so are all its variables. -/
def Tracks (ds : Definitions) (c : Partition) (state : NatSet) (σ τ : Store V) : Prop :=
  ∀ x, (∃ d v, d ∈ state ∧ ds.slot? d = some x ∧ ds.localOf? c d = some v ∧ τ ⟨.var, v⟩ = σ ⟨.slot, x⟩) ∨
    σ ⟨.slot, x⟩ = none ∧ ∀ d v, ds.slot? d = some x → ds.localOf? c d = some v → τ ⟨.var, v⟩ = none

def Bound (ds : Definitions) (c : Partition) (state : NatSet) (x : Slot) : Prop :=
  ds.ofSlot state x ≠ [] ∧ ∀ d ∈ ds.ofSlot state x, ∀ e ∈ ds.ofSlot state x, c.Same d e

variable {state : NatSet} {σ τ : Store V}

theorem Bound.readCell {x : Slot} (h : ds.Bound c state x) :
    ∃ d v, d ∈ ds.ofSlot state x ∧ ds.localOf? c d = some v ∧ ds.readCell c state x = ⟨.var, v⟩ := by
  obtain ⟨hne, -⟩ := h
  cases hl : ds.ofSlot state x with
  | nil => exact absurd hl hne
  | cons d l =>
    have hd : d ∈ ds.ofSlot state x := hl ▸ .head _
    obtain ⟨v, hv⟩ := exists_localOf? (c := c) (lt_size_of_slot? (mem_ofSlot.1 hd).2)
    exact ⟨d, v, .head _, hv, by simp [Definitions.readCell, hl, hv]⟩

theorem Tracks.mono {state' : NatSet} (h : ds.Tracks c state σ τ) (hs : ∀ d ∈ state, d ∈ state') :
    ds.Tracks c state' σ τ := fun x =>
  (h x).imp_left fun ⟨d, v, hd, hrest⟩ => ⟨d, v, hs d hd, hrest⟩

theorem Tracks.read (h : ds.Tracks c state σ τ) {x : Slot} (hb : ds.Bound c state x) :
    τ (ds.readCell c state x) = σ ⟨.slot, x⟩ := by
  obtain ⟨d, v, hd, hv, hr⟩ := hb.readCell
  rw [hr]
  rcases h x with ⟨e, w, he, hex, hw, hτ⟩ | ⟨hσ, hall⟩
  · have hsame := hb.2 d hd e (mem_ofSlot.2 ⟨he, hex⟩)
    rw [localOf?_of_same hsame, hw] at hv
    cases hv
    exact hτ
  · rw [hσ]
    exact hall d v (mem_ofSlot.1 hd).2 hv

theorem Tracks.define (hc : ds.Coherent c) (h : ds.Tracks c state σ τ) {d v : Nat} {x : Slot}
    (hx : ds.slot? d = some x) (hv : ds.localOf? c d = some v) (y : V) :
    ds.Tracks c (ds.define state x d) (σ.set ⟨.slot, x⟩ y) (τ.set ⟨.var, v⟩ y) := by
  intro z
  by_cases hz : z = x
  · subst hz
    exact .inl ⟨d, v, mem_define.2 (.inl rfl), hx, hv, by simp⟩
  · have hcell : (⟨.slot, z⟩ : Cell) ≠ ⟨.slot, x⟩ := by simpa using hz
    have apart {e w : Nat} (he : ds.slot? e = some z) (hw : ds.localOf? c e = some w) :
        (⟨.var, w⟩ : Cell) ≠ ⟨.var, v⟩ := by
      intro hwv
      cases hwv
      have hslot := slot?_of_localOf? hc hw hv
      rw [hx, he] at hslot
      exact hz (Option.some.inj hslot)
    rcases h z with ⟨e, w, he, hez, hw, hτ⟩ | ⟨hσ, hall⟩
    · refine .inl ⟨e, w, mem_define.2 (.inr ⟨he, ?_⟩), hez, hw, ?_⟩
      · rw [hez]
        simpa using hz
      · rw [Store.set_of_ne _ _ hcell, Store.set_of_ne _ _ (apart hez hw), hτ]
    · refine .inr ⟨by rw [Store.set_of_ne _ _ hcell, hσ], fun e w he hw => ?_⟩
      rw [Store.set_of_ne _ _ (apart he hw)]
      exact hall e w he hw

end LuaLift.Definitions
