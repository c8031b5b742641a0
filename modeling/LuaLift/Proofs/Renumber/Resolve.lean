import LuaLift.Proofs.Renumber.Inline
import LuaLift.Slots.Resolve

namespace LuaLift

variable {π : Equiv.Perm Nat}

def Site.renumber (π : Equiv.Perm Nat) : Site → Site
  | parameter s => parameter s
  | target b i position => target (π b) i position

theorem Site.renumber_injective : Function.Injective (Site.renumber π) := by
  intro s t h
  cases s <;> cases t <;> simp_all [renumber]

@[simp] theorem Site.isParameter_renumber (s : Site) : (s.renumber π).isParameter = s.isParameter := by
  cases s <;> rfl

@[simp] theorem Site.block?_renumber (s : Site) : (s.renumber π).block? = s.block?.map π := by
  cases s <;> rfl

def Definition.renumber (π : Equiv.Perm Nat) (d : Definition) : Definition := { d with site := d.site.renumber π }

namespace Definitions

structure Renumbers (π : Equiv.Perm Nat) (ds ds' : Definitions) : Prop where
  list : ds'.list = ds.list.map (.renumber π)

structure Reaching.Renumbers (π : Equiv.Perm Nat) (r r' : Reaching) : Prop where
  entry : Permutes π r.entry r'.entry
  exit : Permutes π r.exit r'.exit

theorem of_renumber {p q : Proto} (hr : p.Renumbers π q) {f f' : Flow} (hf : f.Renumbers π f') :
    (Definitions.of p f).Renumbers π (.of q f') where
  list := by
    have hblock (b : BlockId) : ofBlock q (π b) = (ofBlock p b).map (.renumber π) := by
      simp only [ofBlock, hr.body, List.map_flatMap, List.map_map]
      rfl
    simp only [Definitions.of, hr.parameters, hf.order, List.map_append, List.map_map, List.flatMap_map,
      List.map_flatMap, hblock]
    rfl

namespace Renumbers

variable {ds ds' : Definitions} (hd : ds.Renumbers π ds')
include hd

theorem size : ds'.size = ds.size := by rw [Definitions.size, hd.list, List.length_map, ← Definitions.size]

theorem slot? (d : Nat) : ds'.slot? d = ds.slot? d := by
  rw [Definitions.slot?, hd.list, List.getElem?_map, Option.map_map]
  rfl

theorem block? (d : Nat) : ds'.block? d = (ds.block? d).map π := by
  rw [Definitions.block?, Definitions.block?, hd.list, List.getElem?_map]
  cases ds.list[d]? with
  | none => rfl
  | some e => exact e.site.block?_renumber

theorem isParameter (d : Nat) : ds'.isParameter d = ds.isParameter d := by
  rw [Definitions.isParameter, Definitions.isParameter, hd.list, List.getElem?_map, Option.map_map]
  simp [Definition.renumber, Function.comp_def]

theorem number? (site : Site) : ds'.number? (site.renumber π) = ds.number? site := by
  rw [Definitions.number?, Definitions.number?, hd.list, List.findIdx?_map]
  congr 1
  funext d
  simp [Definition.renumber, Site.renumber_injective.eq_iff]

theorem ofSlot (state : NatSet) (s : Slot) : ds'.ofSlot state s = ds.ofSlot state s := by
  simp only [Definitions.ofSlot, hd.slot?]

theorem transfer (b : BlockId) (i : Nat) (s : Stmt) (state : NatSet) :
    ds'.transfer (π b) i s state = ds.transfer b i s state := by
  have hnumber (position : Nat) : ds'.number? (.target (π b) i position) = ds.number? (.target b i position) :=
    hd.number? (.target b i position)
  simp only [Definitions.transfer, Definitions.define, hnumber, hd.slot?]

theorem alongFrom (b : BlockId) (i : Nat) (state : NatSet) (ss : List Stmt) :
    ds'.alongFrom (π b) i state ss = ds.alongFrom b i state ss := by
  induction ss generalizing i state with
  | nil => rfl
  | cons s rest ih => rw [Definitions.alongFrom, Definitions.alongFrom, hd.transfer, ih]

theorem parameters : ds'.parameters = ds.parameters := by
  have hparameter : ds'.isParameter = ds.isParameter := funext hd.isParameter
  rw [Definitions.parameters, Definitions.parameters, hd.size, hparameter]

variable {p q : Proto} (hr : p.Renumbers π q) {f f' : Flow} (hf : f.Renumbers π f')
include hr hf

section Sweeps

variable {r r' : Reaching} (h : r.Renumbers π r')
include h

theorem update (b : BlockId) : (ds.update p f r b).Renumbers π (ds'.update q f' r' (π b)) := by
  have hatExit (a : BlockId) : r'.atExit (π a) = r.atExit a := by
    rw [Reaching.atExit, Reaching.atExit, h.exit]
  have hstart : (if π b = 0 then ds'.parameters else ∅) = if b = 0 then ds.parameters else ∅ := by
    rw [hd.parameters]
    simp only [hr.eq_zero_iff]
  have hentry : (f'.predecessors (π b)).foldl (fun s a => s ∪ r'.atExit a) (if b = 0 then ds.parameters else ∅) =
      (f.predecessors b).foldl (fun s a => s ∪ r.atExit a) (if b = 0 then ds.parameters else ∅) := by
    rw [hf.predecessors, List.foldl_map]
    simp only [hatExit]
  simp only [Definitions.update, hstart, hentry, hr.body, hd.transfer]
  exact ⟨h.entry.set b _, h.exit.set b _⟩

theorem sweep : (ds.sweep p f r).Renumbers π (ds'.sweep q f' r') := by
  rw [Definitions.sweep, Definitions.sweep, hf.order]
  generalize f.order = bs
  induction bs generalizing r r' with
  | nil => exact h
  | cons b bs ih => exact ih (hd.update hr hf h b)

end Sweeps

theorem settle (n : Nat) {r r' : Reaching} (h : r.Renumbers π r') :
    Option.Rel (Reaching.Renumbers π) (ds.settle p f n r) (ds'.settle q f' n r') := by
  induction n generalizing r r' with
  | zero => exact .none
  | succ n ih =>
    have hs := hd.sweep hr hf h
    have heq : ds'.sweep q f' r' = r' ↔ ds.sweep p f r = r := by
      have hentry := h.entry.eq_iff hs.entry
      have hexit := h.exit.eq_iff hs.exit
      generalize ds'.sweep q f' r' = m' at hentry hexit
      generalize ds.sweep p f r = m at hentry hexit
      cases r; cases r'; cases m; cases m'
      simp only [Reaching.mk.injEq] at hentry hexit ⊢
      rw [hentry, hexit]
    rw [Definitions.settle, Definitions.settle]
    simp only [heq]
    split
    · exact .some hs
    · exact ih hs

variable {r r' : Reaching} (h : r.Renumbers π r')
include h

omit hf in
theorem states (b : BlockId) : ds'.states q r' (π b) = ds.states p r b := by
  rw [Definitions.states, Definitions.states, hr.body, hd.alongFrom, Reaching.atEntry, h.entry, ← Reaching.atEntry]

omit hf in
theorem readsIn (b : BlockId) : ds'.readsIn q r' (π b) = ds.readsIn p r b := by
  rw [Definitions.readsIn, Definitions.readsIn, hr.blocks, hd.states hr h]
  cases p.blocks[b]? with
  | none => rfl
  | some block =>
    have hreads : (block.renumber π).slotReads = block.slotReads := by
      simp [Block.slotReads, Block.renumber]
    simp only [Option.map_some, hreads, hd.ofSlot]

theorem undefinedRead? :
    ds'.undefinedRead? q f' r' = (ds.undefinedRead? p f r).map fun e => (π e.1, e.2) := by
  rw [Definitions.undefinedRead?, Definitions.undefinedRead?, hf.order, List.findSome?_map, List.map_findSome?]
  congr 1
  funext b
  rw [Function.comp_apply, Function.comp_apply, hd.readsIn hr h, Option.map_map]
  rfl

theorem links : ds'.links q f' r' = ds.links p f r := by
  rw [Definitions.links, Definitions.links, hf.order, List.flatMap_map]
  simp only [hd.readsIn hr h]

theorem readWebs : ds'.readWebs q f' r' = ds.readWebs p f r := by
  rw [Definitions.readWebs, Definitions.readWebs, hd.size, hd.links hr hf h]

variable {l l' : Liveness} (hl : l.Renumbers π l')
include hl

theorem livePoints (webs : Partition) :
    ds'.livePoints q f' r' l' webs = (ds.livePoints p f r l webs).map fun e => (e.1, Prod.map π id e.2) := by
  have hpoints (b : BlockId) : LiveRange.atPoints .slot q l' (π b) =
      (LiveRange.atPoints .slot p l b).map fun e => (e.1, Prod.map π id e.2) := by
    simp only [LiveRange.atPoints, hl.points hr, List.map_map]
    rfl
  rw [Definitions.livePoints, Definitions.livePoints, hf.order, List.flatMap_map, List.map_flatMap]
  congr 1
  funext b
  rw [hd.states hr h, hpoints, List.zip_map_right, List.flatMap_map, List.map_flatMap]
  congr 1
  funext e
  obtain ⟨state, live, point⟩ := e
  simp only [Prod.map, id, hd.ofSlot, List.map_filterMap, Option.map_map]
  rfl

omit hf h hl in
theorem debugIndex? (d : Nat) : ds'.debugIndex? q d = ds.debugIndex? p d := by
  rw [Definitions.debugIndex?, Definitions.debugIndex?, hd.slot?, hd.block?, hr.debugNames]
  cases ds.slot? d with
  | none => rfl
  | some s =>
    cases ds.block? d with
    | none => rfl
    | some b =>
      simp only [Option.map_some, Option.bind_eq_bind, Option.bind_some, hr.blocks]
      cases p.blocks[b]? <;> rfl

omit hf h hl in
theorem namedWebs (webs : Partition) : ds'.namedWebs q webs = ds.namedWebs p webs := by
  funext name
  simp only [Definitions.namedWebs, hd.size, hd.debugIndex? hr]

omit hd hr hf h hl in
theorem overlap_map (r s : List Point) : overlap (r.map (Prod.map π id)) (s.map (Prod.map π id)) = overlap r s := by
  have hinj : Function.Injective (Prod.map π (id : Nat → Nat)) := π.injective.prodMap Function.injective_id
  simp only [overlap, List.any_map]
  congr 1
  funext x
  simp only [Function.comp_apply, List.contains_eq_mem, List.mem_map_of_injective hinj]

omit hd hr hf h hl in
theorem mergeNamed_map (rangeOf : Nat → List Point) (first : Nat) (range : List Point) (ws : List Nat)
    (webs : Partition) : mergeNamed (fun w => (rangeOf w).map (Prod.map π id)) first (range.map (Prod.map π id)) ws
      webs = mergeNamed rangeOf first range ws webs := by
  induction ws generalizing range webs with
  | nil => rfl
  | cons w rest ih => simp only [mergeNamed, overlap_map, ← List.map_append, ih]

omit hd hr hf h hl in
theorem mergeGroup_map (rangeOf : Nat → List Point) :
    mergeGroup (fun w => (rangeOf w).map (Prod.map π id)) = mergeGroup rangeOf := by
  funext webs ws
  cases ws with
  | nil => rfl
  | cons w rest => exact mergeNamed_map rangeOf w (rangeOf w) rest webs

theorem webs : ds'.webs q f' r' l' = ds.webs p f r l := by
  have hrange (points : List (Nat × Point)) : (fun w => ((points.map fun e => (e.1, Prod.map π id e.2)).filter
      (·.1 = w)).map (·.2)) = fun w => (((points.filter (·.1 = w)).map (·.2)).map (Prod.map π id)) := by
    funext w
    have hfilter : (points.map fun e => (e.1, Prod.map π id e.2)).filter (·.1 = w) =
        (points.filter (·.1 = w)).map fun e => (e.1, Prod.map π id e.2) :=
      filter_map_congr fun _ _ => rfl
    rw [hfilter, List.map_map, List.map_map]
    rfl
  simp only [Definitions.webs, hd.readWebs hr hf h, hd.livePoints hr hf h hl, hrange, mergeGroup_map, hr.debugNames,
    hd.namedWebs hr]

omit hr hf h hl in
theorem localOf? (webs : Partition) : ds'.localOf? webs = ds.localOf? webs := by
  funext d
  rw [Definitions.localOf?, Definitions.localOf?, roots, roots, hd.size]

omit hf h hl in
theorem nameOfRoot (d : Nat) (s : Slot) : ds'.nameOfRoot q d s = ds.nameOfRoot p d s := by
  have hhead : q.blocks.head? = p.blocks.head?.map (Block.renumber π) := by
    have := hr.blocks 0
    rwa [hr.zero, ← List.head?_eq_getElem?, ← List.head?_eq_getElem?] at this
  have hname (o : Option Block) : (o.map (Block.renumber π)).bind (q.debugName? s) = o.bind (p.debugName? s) := by
    cases o with
    | none => rfl
    | some b =>
      simp only [Option.map_some, Option.bind_some, Proto.debugName?, hr.debugNames]
      rfl
  have hblock : (ds'.block? d >>= (q.blocks[·]?)) = (ds.block? d >>= (p.blocks[·]?)).map (Block.renumber π) := by
    rw [hd.block?]
    cases ds.block? d with
    | none => rfl
    | some b => exact hr.blocks b
  rw [Definitions.nameOfRoot, Definitions.nameOfRoot, hd.isParameter, hhead, hblock, ← apply_ite, hname]

omit hf h hl in
theorem locals (webs : Partition) : ds'.locals q webs = ds.locals p webs := by
  have hroot : ds'.localOfRoot q = ds.localOfRoot p := by
    funext d s earlier
    simp only [Definitions.localOfRoot, hd.isParameter, hd.nameOfRoot hr]
  simp only [Definitions.locals, roots, hd.size, hd.slot?, hroot]

omit hr hf h hl in
theorem read (webs : Partition) : ds'.read webs = ds.read webs := by
  funext state s
  rw [Definitions.read, Definitions.read, hd.ofSlot, hd.localOf?]

omit hf hl in
theorem bindBlock (webs : Partition) (b : BlockId) (block : Block) :
    ds'.bindBlock q webs r' (π b) (block.renumber π) = (ds.bindBlock p webs r b block).renumber π := by
  have hnumber (i position : Nat) : ds'.number? (.target (π b) i position) = ds.number? (.target b i position) :=
    hd.number? (.target b i position)
  simp only [Definitions.bindBlock, Block.renumber, hd.states hr h, hd.read, hd.localOf?, hnumber,
    Jump.mapCondition_map]

omit hl in
theorem bindBlocks (webs : Partition) :
    ({ p with blocks := p.blocks.zipIdx.map fun (block, b) =>
        if f.isReachable b then ds.bindBlock p webs r b block else block } : Proto).Renumbers π
      { q with blocks := q.blocks.zipIdx.map fun (block, b) =>
        if f'.isReachable b then ds'.bindBlock q webs r' b block else block } := by
  apply hr.update
  · rw [List.length_map, List.length_zipIdx]
  · intro i b hb
    rw [List.getElem?_map, List.getElem?_zipIdx, Option.map_map, Option.map_eq_some_iff] at hb
    obtain ⟨c, hc, rfl⟩ := hb
    simp only [Function.comp_apply]
    split <;> exact hr.numbered i c hc
  · intro b
    simp only [List.getElem?_map, List.getElem?_zipIdx, hr.blocks, Option.map_map, Nat.zero_add]
    cases p.blocks[b]? with
    | none => rfl
    | some block =>
      simp only [Option.map_some, Function.comp_apply, hf.isReachable, hd.bindBlock hr h]
      split <;> rfl

end Renumbers

end Definitions

end LuaLift
