import LuaLift.Proofs.Data.Partition
import LuaLift.Proofs.Slots.Reaching
import LuaLift.Slots.Resolve

namespace LuaLift.Definitions

variable {ds : Definitions} {p : Proto} {f : Flow} {r : Reaching} {l : Liveness}

structure Coherent (ds : Definitions) (c : Partition) : Prop where
  length : c.parents.length = ds.size
  slot : ∀ d, ds.slot? (c.root d) = ds.slot? d

theorem Coherent.union {c : Partition} (h : ds.Coherent c) {a b : Nat} (ha : a < ds.size) (hb : b < ds.size)
    (hab : ds.slot? a = ds.slot? b) : ds.Coherent (c.union a b) :=
  ⟨(c.length_union a b).trans h.length,
    Partition.root_union_constant h.slot (h.length ▸ ha) (h.length ▸ hb) hab⟩

theorem coherent_discrete : ds.Coherent (.discrete ds.size) :=
  ⟨by simp [Partition.discrete], fun d => by rw [Partition.root_discrete]⟩

def Alike (ds : Definitions) (a b : Nat) : Prop :=
  a < ds.size ∧ b < ds.size ∧ ds.slot? a = ds.slot? b

structure Extends (ds : Definitions) (c c' : Partition) : Prop where
  coherent : ds.Coherent c → ds.Coherent c'
  same : ds.Coherent c → ∀ a b, c.Same a b → c'.Same a b

theorem Extends.refl (c : Partition) : ds.Extends c c := ⟨id, fun _ _ _ h => h⟩

theorem Extends.trans {c c' c'' : Partition} (h : ds.Extends c c') (h' : ds.Extends c' c'') :
    ds.Extends c c'' :=
  ⟨fun hc => h'.coherent (h.coherent hc), fun hc a b hab => h'.same (h.coherent hc) a b (h.same hc a b hab)⟩

theorem extends_union (c : Partition) {a b : Nat} (h : ds.Alike a b) : ds.Extends c (c.union a b) :=
  ⟨fun hc => hc.union h.1 h.2.1 h.2.2,
    fun hc _ _ hxy => hxy.union (hc.length ▸ h.1) (hc.length ▸ h.2.1)⟩

theorem extends_unionAll (c : Partition) {pairs : List (Nat × Nat)}
    (h : ∀ e ∈ pairs, ds.Alike e.1 e.2) : ds.Extends c (c.unionAll pairs) := by
  induction pairs generalizing c with
  | nil => exact .refl c
  | cons e pairs ih =>
    exact (extends_union c (h e (.head _))).trans (ih _ fun e' he' => h e' (.tail _ he'))

theorem same_unionAll {c : Partition} (hc : ds.Coherent c) {pairs : List (Nat × Nat)}
    (h : ∀ e ∈ pairs, ds.Alike e.1 e.2) : ∀ e ∈ pairs, (c.unionAll pairs).Same e.1 e.2 := by
  induction pairs generalizing c with
  | nil => simp
  | cons e pairs ih =>
    have he := h e (.head _)
    have htail : ∀ e' ∈ pairs, ds.Alike e'.1 e'.2 := fun e' he' => h e' (.tail _ he')
    have hcu := hc.union he.1 he.2.1 he.2.2
    intro e' he'
    rcases List.mem_cons.1 he' with rfl | he'
    · exact (extends_unionAll _ htail).same hcu _ _
        (Partition.same_union (hc.length ▸ he.1) (hc.length ▸ he.2.1))
    · exact ih hcu htail e' he'

theorem same_of_neighbours {c : Partition} {l : List Nat} (h : ∀ e ∈ l.zip l.tail, c.Same e.1 e.2) :
    ∀ a ∈ l, ∀ b ∈ l, c.Same a b := by
  have head (x : Nat) (l : List Nat) (h : ∀ e ∈ (x :: l).zip l, c.Same e.1 e.2) : ∀ a ∈ x :: l, c.Same x a := by
    induction l generalizing x with
    | nil => simp [Partition.Same]
    | cons y l ih =>
      have hxy : c.Same x y := h (x, y) (.head _)
      have hy := ih y fun e he => h e (.tail _ he)
      intro a ha
      rcases List.mem_cons.1 ha with rfl | ha
      · rfl
      · exact Eq.trans hxy (hy a ha)
  cases l with
  | nil => simp
  | cons x l =>
    intro a ha b hb
    exact Eq.trans (head x l h a ha).symm (head x l h b hb)

theorem alike_of_ofSlot {state : NatSet} {x : Slot} {a b : Nat} (ha : a ∈ ds.ofSlot state x)
    (hb : b ∈ ds.ofSlot state x) : ds.Alike a b := by
  have ha' := (mem_ofSlot.1 ha).2
  have hb' := (mem_ofSlot.1 hb).2
  exact ⟨lt_size_of_slot? ha', lt_size_of_slot? hb', ha'.trans hb'.symm⟩

theorem mem_readsIn_iff {b : BlockId} {block : Block} (hblock : p.blocks[b]? = some block) {x : Slot}
    {defs : List Nat} : (x, defs) ∈ ds.readsIn p r b ↔ ∃ (i : Nat) (state : NatSet) (reads : List Slot),
      (ds.states p r b)[i]? = some state ∧ block.slotReads[i]? = some reads ∧ x ∈ reads ∧
        defs = ds.ofSlot state x := by
  unfold readsIn
  rw [hblock]
  constructor
  · intro h
    obtain ⟨⟨state, reads⟩, hzip, h⟩ := List.mem_flatMap.1 h
    obtain ⟨y, hy, he⟩ := List.mem_map.1 h
    cases he
    obtain ⟨i, hi⟩ := List.mem_iff_getElem?.1 hzip
    obtain ⟨hstate, hreads⟩ := List.getElem?_zip_eq_some.1 hi
    exact ⟨i, state, reads, hstate, hreads, hy, rfl⟩
  · rintro ⟨i, state, reads, hstate, hreads, hx, rfl⟩
    refine List.mem_flatMap.2 ⟨(state, reads), List.mem_of_getElem? (i := i) ?_, List.mem_map.2 ⟨x, hx, rfl⟩⟩
    exact List.getElem?_zip_eq_some.2 ⟨hstate, hreads⟩

theorem mem_readsIn {b : BlockId} {x : Slot} {defs : List Nat} (h : (x, defs) ∈ ds.readsIn p r b) :
    ∃ state, defs = ds.ofSlot state x := by
  cases hblock : p.blocks[b]? with
  | none => simp [readsIn, hblock] at h
  | some block =>
    obtain ⟨-, state, -, -, -, -, hdefs⟩ := (mem_readsIn_iff hblock).1 h
    exact ⟨state, hdefs⟩

theorem alike_of_links {e : Nat × Nat} (h : e ∈ ds.links p f r) : ds.Alike e.1 e.2 := by
  simp only [links, List.mem_flatMap] at h
  obtain ⟨b, -, ⟨x, defs⟩, hx, he⟩ := h
  obtain ⟨state, rfl⟩ := mem_readsIn hx
  obtain ⟨h₁, h₂⟩ := List.of_mem_zip he
  exact alike_of_ofSlot h₁ (List.mem_of_mem_tail h₂)

theorem coherent_readWebs : ds.Coherent (ds.readWebs p f r) :=
  (extends_unionAll _ fun _ => alike_of_links).coherent coherent_discrete

theorem extends_mergeNamed (rangeOf : Nat → List Point) {first : Nat} (range : List Point) {ws : List Nat}
    (h : ∀ w ∈ ws, ds.Alike first w) (c : Partition) :
    ds.Extends c (mergeNamed rangeOf first range ws c) := by
  induction ws generalizing range c with
  | nil => exact .refl c
  | cons w ws ih =>
    have htail : ∀ w' ∈ ws, ds.Alike first w' := fun w' hw' => h w' (.tail _ hw')
    unfold mergeNamed
    split
    · exact ih range htail c
    · exact (extends_union c (h w (.head _))).trans (ih _ htail _)

theorem extends_mergeGroup (rangeOf : Nat → List Point) (c : Partition) {ws : List Nat}
    (h : ∀ a ∈ ws, ∀ b ∈ ws, ds.Alike a b) : ds.Extends c (mergeGroup rangeOf c ws) := by
  cases ws with
  | nil => exact .refl c
  | cons w ws => exact extends_mergeNamed rangeOf _ (fun b hb => h w (.head _) b (.tail _ hb)) c

theorem slot?_of_debugIndex? {d name : Nat} (h : ds.debugIndex? p d = some name) :
    name < p.debugNames.length ∧ ds.slot? d = p.debugNames[name]?.map (·.slot) := by
  simp only [debugIndex?, Option.bind_eq_bind, Option.bind_eq_some_iff] at h
  obtain ⟨x, hx, b, -, block, -, hi⟩ := h
  obtain ⟨hlt, hs, -⟩ := List.findIdx?_eq_some_iff_getElem.1 hi
  simp only [Bool.and_eq_true, decide_eq_true_eq] at hs
  refine ⟨hlt, ?_⟩
  rw [hx, List.getElem?_eq_getElem hlt, Option.map_some, hs.1]

theorem mem_namedWebs {c : Partition} {name w : Nat} :
    w ∈ ds.namedWebs p c name ↔ ∃ d < ds.size, ds.debugIndex? p d = some name ∧ c.root d = w := by
  simp only [namedWebs, List.mem_eraseDups, List.mem_map, List.mem_filter, List.mem_range, beq_iff_eq, and_assoc]

theorem alike_of_namedWebs {c : Partition} (hc : ds.Coherent c) {name : Nat} {a b : Nat}
    (ha : a ∈ ds.namedWebs p c name) (hb : b ∈ ds.namedWebs p c name) : ds.Alike a b := by
  have slot {w : Nat} (hw : w ∈ ds.namedWebs p c name) :
      w < ds.size ∧ ds.slot? w = p.debugNames[name]?.map (·.slot) := by
    obtain ⟨d, hd, hn, rfl⟩ := mem_namedWebs.1 hw
    refine ⟨Nat.lt_of_le_of_lt (c.root_le d) hd, ?_⟩
    rw [hc.slot]
    exact (slot?_of_debugIndex? hn).2
  exact ⟨(slot ha).1, (slot hb).1, (slot ha).2.trans (slot hb).2.symm⟩

theorem extends_webs : ds.Extends (ds.readWebs p f r) (ds.webs p f r l) := by
  unfold webs
  simp only
  refine List.foldlRecOn (motive := ds.Extends (ds.readWebs p f r)) _ _ (.refl _) fun c hc ws hws => ?_
  obtain ⟨name, -, rfl⟩ := List.mem_map.1 hws
  exact hc.trans (extends_mergeGroup _ c fun a ha b hb => alike_of_namedWebs coherent_readWebs ha hb)

theorem coherent_webs : ds.Coherent (ds.webs p f r l) := extends_webs.coherent coherent_readWebs

theorem same_of_readsIn {b : BlockId} (hb : b ∈ f.order) {x : Slot} {defs : List Nat}
    (h : (x, defs) ∈ ds.readsIn p r b) {d e : Nat} (hd : d ∈ defs) (he : e ∈ defs) :
    (ds.webs p f r l).Same d e := by
  refine extends_webs.same coherent_readWebs d e (same_of_neighbours (fun e he => ?_) d hd e he)
  refine same_unionAll coherent_discrete (fun _ => alike_of_links) e ?_
  exact List.mem_flatMap.2 ⟨b, hb, List.mem_flatMap.2 ⟨(x, defs), h, he⟩⟩

end LuaLift.Definitions
