import LuaLift.Proofs.Effects
import LuaLift.Proofs.Tree.Kept
import LuaLift.Proofs.Tree.Runs

namespace LuaLift

variable {V W : Type}

namespace Effects

variable (M : Effects V W)

def act : Action V → Env V W → Option (Env V W)
  | .stmt s, e => some (M.run s e)
  | .test c holds, e => if (M.test c e).1 = holds then some (M.test c e).2 else none
  | .header es, e =>
    some { (M.evalEach es e).2 with world := M.noted (M.evalEach es e).1 (M.evalEach es e).2.world }
  | .bind vs held, e =>
    let xs := vs.map fun v => (held v).getD M.nil
    let e := (M.declare vs e).setAll (vs.map (⟨.var, ·⟩)) xs
    some { e with world := M.noted [xs] e.world }

def actAll (l : List (Action V)) (e : Env V W) : Option (Env V W) := l.foldlM (fun e a => M.act a e) e

theorem actAll_append (k l : List (Action V)) (e : Env V W) :
    M.actAll (k ++ l) e = (M.actAll k e).bind (M.actAll l) := List.foldlM_append

theorem actAll_singleton (a : Action V) (e : Env V W) : M.actAll [a] e = M.act a e := by
  simp [actAll]

end Effects

namespace Runs

variable (M : Effects V W) {R R' S S' : Runs V}

def Leads (R : Runs V) (e : Env V W) (x : Ending) (e' : Env V W) : Prop := ∃ l, R l x ∧ M.actAll l e = some e'

variable {M} {e e' : Env V W} {x : Ending}

theorem leads_seq : Leads M (seq R S) e x e' ↔
    Leads M R e x e' ∧ x ≠ .through ∨ ∃ e₁, Leads M R e .through e₁ ∧ Leads M S e₁ x e' := by
  constructor
  · rintro ⟨l, ⟨h, hne⟩ | ⟨k, m, hk, hm, rfl⟩, hl⟩
    · exact .inl ⟨⟨l, h, hl⟩, hne⟩
    · rw [M.actAll_append, Option.bind_eq_some_iff] at hl
      obtain ⟨e₁, h₁, h₂⟩ := hl
      exact .inr ⟨e₁, ⟨k, hk, h₁⟩, m, hm, h₂⟩
  · rintro (⟨⟨l, h, hl⟩, hne⟩ | ⟨e₁, ⟨k, hk, h₁⟩, m, hm, h₂⟩)
    · exact ⟨l, .inl ⟨h, hne⟩, hl⟩
    · refine ⟨k ++ m, .inr ⟨k, m, hk, hm, rfl⟩, ?_⟩
      rw [M.actAll_append, h₁]
      exact h₂

theorem leads_either : Leads M (either R S) e x e' ↔ Leads M R e x e' ∨ Leads M S e x e' := by
  constructor
  · rintro ⟨l, h | h, hl⟩
    · exact .inl ⟨l, h, hl⟩
    · exact .inr ⟨l, h, hl⟩
  · rintro (⟨l, h, hl⟩ | ⟨l, h, hl⟩)
    · exact ⟨l, .inl h, hl⟩
    · exact ⟨l, .inr h, hl⟩

theorem leads_only {a : Action V} {y : Ending} : Leads M (only [a] y) e x e' ↔ x = y ∧ M.act a e = some e' := by
  constructor
  · rintro ⟨l, ⟨rfl, rfl⟩, hl⟩
    exact ⟨rfl, M.actAll_singleton a e ▸ hl⟩
  · rintro ⟨rfl, ha⟩
    exact ⟨[a], ⟨rfl, rfl⟩, (M.actAll_singleton a e).trans ha⟩

theorem leads_nil {y : Ending} : Leads M (only [] y) e x e' ↔ x = y ∧ e = e' := by
  constructor
  · rintro ⟨l, ⟨rfl, rfl⟩, hl⟩
    exact ⟨rfl, Option.some.inj hl⟩
  · rintro ⟨rfl, rfl⟩
    exact ⟨[], ⟨rfl, rfl⟩, rfl⟩

theorem leads_stmt {s : Stmt} : Leads M (Node.runsOf [.stmt s]) e x e' ↔
    x = (if s.isReturn then .stopped else .through) ∧ M.run s e = e' := by
  rw [Node.runsOf_singleton, Node.runs, leads_only]
  exact and_congr_right fun _ => Option.some_inj

variable (M)

def Follows (Z : List Cell) (R S : Runs V) : Prop :=
  ∀ (e₁ e₂ : Env V W) (x : Ending) (e₁' : Env V W), e₁.apart Z = e₂.apart Z → Leads M R e₁ x e₁' →
    ∃ e₂', Leads M S e₂ x e₂' ∧ e₁'.apart Z = e₂'.apart Z

structure SameOutcomes (Z : List Cell) (R S : Runs V) : Prop where
  there : Follows M Z R S
  back : Follows M Z S R

variable {M} {Z : List Cell}

namespace Follows

theorem seq (hR : Follows M Z R R') (hS : Follows M Z S S') : Follows M Z (Runs.seq R S) (Runs.seq R' S') := by
  intro e₁ e₂ x e₁' he h
  rcases leads_seq.1 h with ⟨h, hne⟩ | ⟨e₃, h, h'⟩
  · obtain ⟨e₂', h₂, he'⟩ := hR e₁ e₂ x e₁' he h
    exact ⟨e₂', leads_seq.2 (.inl ⟨h₂, hne⟩), he'⟩
  · obtain ⟨e₄, h₄, he₄⟩ := hR e₁ e₂ .through e₃ he h
    obtain ⟨e₂', h₂, he'⟩ := hS e₃ e₄ x e₁' he₄ h'
    exact ⟨e₂', leads_seq.2 (.inr ⟨e₄, h₄, h₂⟩), he'⟩

theorem either (hR : Follows M Z R R') (hS : Follows M Z S S') :
    Follows M Z (Runs.either R S) (Runs.either R' S') := by
  intro e₁ e₂ x e₁' he h
  rcases leads_either.1 h with h | h
  · obtain ⟨e₂', h₂, he'⟩ := hR e₁ e₂ x e₁' he h
    exact ⟨e₂', leads_either.2 (.inl h₂), he'⟩
  · obtain ⟨e₂', h₂, he'⟩ := hS e₁ e₂ x e₁' he h
    exact ⟨e₂', leads_either.2 (.inr h₂), he'⟩

theorem loop (hR : Follows M Z R R') (hS : Follows M Z S S') : Follows M Z (Runs.loop R S) (Runs.loop R' S') := by
  rintro e₁ e₂ x e₁' he ⟨l, h, hl⟩
  induction h generalizing e₁ e₂ with
  | cut =>
    obtain rfl := Option.some.inj hl
    exact ⟨e₂, ⟨[], .cut, rfl⟩, he⟩
  | leave h =>
    obtain ⟨e₂', ⟨m, hm, hm'⟩, he'⟩ := hS e₁ e₂ _ e₁' he ⟨_, h, hl⟩
    exact ⟨e₂', ⟨m, .leave hm, hm'⟩, he'⟩
  | broken h =>
    obtain ⟨e₂', ⟨m, hm, hm'⟩, he'⟩ := hR e₁ e₂ _ e₁' he ⟨_, h, hl⟩
    exact ⟨e₂', ⟨m, .broken hm, hm'⟩, he'⟩
  | stopped h =>
    obtain ⟨e₂', ⟨m, hm, hm'⟩, he'⟩ := hR e₁ e₂ _ e₁' he ⟨_, h, hl⟩
    exact ⟨e₂', ⟨m, .stopped hm, hm'⟩, he'⟩
  | again h rest ih =>
    rw [M.actAll_append, Option.bind_eq_some_iff] at hl
    obtain ⟨e₃, h₃, hl⟩ := hl
    obtain ⟨e₄, ⟨m, hm, hm'⟩, he₄⟩ := hR e₁ e₂ _ e₃ he ⟨_, h, h₃⟩
    obtain ⟨e₂', ⟨n, hn, hn'⟩, he'⟩ := ih e₃ e₄ he₄ hl
    refine ⟨e₂', ⟨m ++ n, .again hm hn, ?_⟩, he'⟩
    rw [M.actAll_append, hm']
    exact hn'

theorem bound {vs : List LocalId} (hbind : ∀ held, Follows M Z (does (.bind vs held)) (does (.bind vs held)))
    (hR : Follows M Z R R') : Follows M Z (Runs.bound vs R) (Runs.bound vs R') := by
  rintro e₁ e₂ x e₁' he ⟨l, ⟨held, h⟩, hl⟩
  obtain ⟨e₂', ⟨m, hm, hm'⟩, he'⟩ := (hbind held).seq hR e₁ e₂ x e₁' he ⟨l, h, hl⟩
  exact ⟨e₂', ⟨m, ⟨held, hm⟩, hm'⟩, he'⟩

theorem nil (y : Ending) : Follows M Z (only [] y) (only [] y) := by
  intro e₁ e₂ x e₁' he h
  obtain ⟨rfl, rfl⟩ := leads_nil.1 h
  exact ⟨e₂, leads_nil.2 ⟨rfl, rfl⟩, he⟩

end Follows

namespace SameOutcomes

theorem seq (hR : SameOutcomes M Z R R') (hS : SameOutcomes M Z S S') :
    SameOutcomes M Z (Runs.seq R S) (Runs.seq R' S') := ⟨hR.there.seq hS.there, hR.back.seq hS.back⟩

theorem either (hR : SameOutcomes M Z R R') (hS : SameOutcomes M Z S S') :
    SameOutcomes M Z (Runs.either R S) (Runs.either R' S') := ⟨hR.there.either hS.there, hR.back.either hS.back⟩

theorem loop (hR : SameOutcomes M Z R R') (hS : SameOutcomes M Z S S') :
    SameOutcomes M Z (Runs.loop R S) (Runs.loop R' S') := ⟨hR.there.loop hS.there, hR.back.loop hS.back⟩

theorem bound {vs : List LocalId} (hbind : ∀ held, SameOutcomes M Z (does (.bind vs held)) (does (.bind vs held)))
    (hR : SameOutcomes M Z R R') : SameOutcomes M Z (Runs.bound vs R) (Runs.bound vs R') :=
  ⟨.bound (fun held => (hbind held).there) hR.there, .bound (fun held => (hbind held).back) hR.back⟩

theorem nil (y : Ending) : SameOutcomes M Z (only [] y) (only [] y) := ⟨.nil y, .nil y⟩

theorem trans {T : Runs V} {Z' : List Cell} (hZ : Z' ⊆ Z) (h : SameOutcomes M Z' R S) (h' : SameOutcomes M Z S T) :
    SameOutcomes M Z R T := by
  constructor
  · intro e₁ e₂ x e₁' he hl
    obtain ⟨e₃, h₃, he₃⟩ := h.there e₁ e₁ x e₁' rfl hl
    obtain ⟨e₂', h₂, he'⟩ := h'.there e₁ e₂ x e₃ he h₃
    exact ⟨e₂', h₂, (Env.apart_mono hZ he₃).trans he'⟩
  · intro e₁ e₂ x e₁' he hl
    obtain ⟨e₃, h₃, he₃⟩ := h'.back e₁ e₂ x e₁' he hl
    obtain ⟨e₂', h₂, he'⟩ := h.back e₂ e₂ x e₃ rfl h₃
    exact ⟨e₂', h₂, he₃.trans (Env.apart_mono hZ he')⟩

theorem of_leads (hS : SameOutcomes M Z S S)
    (there : ∀ e x e₁, Leads M R e x e₁ → ∃ e₂, Leads M S e x e₂ ∧ e₁.apart Z = e₂.apart Z)
    (back : ∀ e x e₂, Leads M S e x e₂ → ∃ e₁, Leads M R e x e₁ ∧ e₁.apart Z = e₂.apart Z) :
    SameOutcomes M Z R S := by
  constructor
  · intro e₁ e₂ x e₁' he hl
    obtain ⟨e₃, h₃, he₃⟩ := there e₁ x e₁' hl
    obtain ⟨e₂', h₂, he'⟩ := hS.there e₁ e₂ x e₃ he h₃
    exact ⟨e₂', h₂, he₃.trans he'⟩
  · intro e₁ e₂ x e₁' he hl
    obtain ⟨e₃, h₃, he₃⟩ := hS.there e₁ e₂ x e₁' he hl
    obtain ⟨e₂', h₂, he'⟩ := back e₂ x e₃ h₃
    exact ⟨e₂', h₂, he₃.trans he'.symm⟩

end SameOutcomes

end Runs

namespace Effects.Blind

variable {M : Effects V W} {hidden Z : List Cell} (hM : M.Blind hidden) (hZ : Z ⊆ hidden)
include hM hZ

theorem act_apart {a : Action V} (ha : ∀ c ∈ a.cells, c ∉ Z) {e₁ e₂ e₁' : Env V W} (he : e₁.apart Z = e₂.apart Z)
    (h : M.act a e₁ = some e₁') : ∃ e₂', M.act a e₂ = some e₂' ∧ e₁'.apart Z = e₂'.apart Z := by
  cases a with
  | stmt s =>
    obtain rfl := Option.some.inj h
    have hreads : ∀ c ∈ s.operands.flatMap Expr.cells, c ∉ Z :=
      fun c hc => ha c (by rw [Action.cells, Stmt.allCells_eq]; exact List.mem_append_left _ hc)
    exact ⟨_, rfl, hM.run_apart hZ hreads he⟩
  | test c holds =>
    obtain ⟨hvalue, hstate⟩ := hM.test_apart hZ ha he
    simp only [act] at h ⊢
    rw [← hvalue]
    split at h
    · next hholds =>
      obtain rfl := Option.some.inj h
      exact ⟨_, if_pos hholds, hstate⟩
    · cases h
  | header es =>
    obtain rfl := Option.some.inj h
    have hcells : ∀ c ∈ es.flatMap Expr.cells, ∀ e e' : Env V W, e.apart Z = e'.apart Z → e.cell c = e'.cell c :=
      fun c hc e e' h => (Env.apart_eq_apart.1 h).1 c (ha c hc)
    obtain ⟨hvalue, hstate⟩ := sides_evalEach (hM.respects hZ) es hcells (fun _ _ _ => trivial) e₁ e₂ he
    refine ⟨_, rfl, ?_⟩
    rw [hvalue]
    exact Env.apart_world_congr hstate _
  | bind vs held =>
    obtain rfl := Option.some.inj h
    exact ⟨_, rfl, Env.apart_world_congr (Env.apart_setAll_congr (hM.declare_apart hZ vs he) _) _⟩

open Runs

theorem only {a : Action V} (ha : ∀ c ∈ a.cells, c ∉ Z) (y : Ending) :
    SameOutcomes M Z (only [a] y) (only [a] y) := by
  have h : Follows M Z (Runs.only [a] y) (Runs.only [a] y) := by
    intro e₁ e₂ x e₁' he hl
    obtain ⟨rfl, hact⟩ := leads_only.1 hl
    obtain ⟨e₂', h₂, he'⟩ := hM.act_apart hZ ha he hact
    exact ⟨e₂', leads_only.2 ⟨rfl, h₂⟩, he'⟩
  exact ⟨h, h⟩

open Node

theorem withBodies {n : Node} (hn : ∀ c ∈ n.cells, c ∉ Z) {g : Nat → Body → Body}
    (hg : ∀ {j b}, n.bodies[j]? = some b → SameOutcomes M Z (runsOf b) (runsOf (g j b))) :
    SameOutcomes M Z n.runs (n.withBodies g).runs := by
  have own {a : Action V} (ha : Acts n a) (y : Ending) : SameOutcomes M Z (Runs.only [a] y) (Runs.only [a] y) :=
    hM.only hZ (fun c hc => hn c (mem_cells_of_acts ha hc)) y
  cases n with
  | stmt s => exact own (.stmt s) _
  | brk => exact .nil _
  | scope b => exact hg (j := 0) rfl
  | ifThen c b =>
    exact ((own (.test rfl true) _).seq (hg (j := 0) rfl)).either (own (.test rfl false) _)
  | ifElse c a b =>
    exact ((own (.test rfl true) _).seq (hg (j := 0) rfl)).either ((own (.test rfl false) _).seq (hg (j := 1) rfl))
  | whileDo c b =>
    exact ((own (.test rfl true) _).seq (hg (j := 0) rfl)).loop (own (.test rfl false) _)
  | repeatUntil b c =>
    exact ((hg (j := 0) rfl).seq (own (.test rfl false) _)).loop ((hg (j := 0) rfl).seq (own (.test rfl true) _))
  | numericFor v x y z b | genericFor vs es b =>
    exact (own (.header _) _).seq (SameOutcomes.loop (.bound (fun held => own (.bind _ held) _) (hg (j := 0) rfl)) (.nil _))

theorem self {b : Body} (hb : ∀ c ∈ (nodesOf b).flatMap Node.cells, c ∉ Z) :
    SameOutcomes M Z (runsOf b) (runsOf b) := by
  refine (tree_induct (Q := fun n => (∀ c ∈ n.nodes.flatMap Node.cells, c ∉ Z) → SameOutcomes M Z n.runs n.runs)
    (P := fun b => (∀ c ∈ (nodesOf b).flatMap Node.cells, c ∉ Z) → SameOutcomes M Z (runsOf b) (runsOf b))
    ?_ ?_ ?_).2 b hb
  · intro n ih hn
    rw [flatMap_nodes, List.forall_mem_append] at hn
    have hself : n.withBodies (fun _ b => b) = n := by cases n <;> rfl
    have h := hM.withBodies hZ hn.1 (g := fun _ b => b) fun hb =>
      ih _ (List.mem_of_getElem? hb) fun c hc => hn.2 c (List.mem_flatMap.2 ⟨_, List.mem_of_getElem? hb, hc⟩)
    rwa [hself] at h
  · intro _
    rw [runsOf_nil]
    exact .nil _
  · intro n rest ihn ih hb
    rw [nodesOf, List.flatMap_append, List.forall_mem_append] at hb
    rw [runsOf_cons]
    exact (ihn hb.1).seq (ih hb.2)

end Effects.Blind

end LuaLift
