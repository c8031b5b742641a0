import LuaLift.Proofs.Loops.Idiom

namespace LuaLift

variable {V W : Type}

inductive Sight (V W : Type) where
  | block (b : BlockId)
  | stmt (s : Stmt) (met : (Cell → Option V) × W)

abbrev Turn (V W : Type) := BlockId → Env V W → Option BlockId × Env V W

def Proto.turn (I : Interpretation V W) (p : Proto) : Turn V W := fun b e =>
  ((p.jump b).follow I.meaning.decide [] e).2

namespace Interpretation

variable (I : Interpretation V W) (hidden : List Cell)

def sights : List Stmt → Env V W → List (Sight V W)
  | [], _ => []
  | s :: rest, e =>
    (if hidden.any s.mentions then [] else [.stmt s (e.apart hidden)]) ++ sights rest (I.meaning.run s e)

theorem sights_append (l r : List Stmt) (e : Env V W) :
    I.sights hidden (l ++ r) e = I.sights hidden l e ++ I.sights hidden r (I.meaning.runAll l e) := by
  induction l generalizing e with
  | nil => rfl
  | cons s l ih => simp [sights, ih, Meaning.runAll]

theorem sights_eq_nil {l : List Stmt} (h : ∀ s ∈ l, ∃ c ∈ hidden, s.mentions c = true) (e : Env V W) :
    I.sights hidden l e = [] := by
  induction l generalizing e with
  | nil => rfl
  | cons s l ih =>
    have hs : hidden.any s.mentions = true := List.any_eq_true.2 (h s (.head _))
    simp [sights, hs, ih fun t ht => h t (.tail _ ht)]

end Interpretation

namespace Interpretation.Lawful

variable {I : Interpretation V W} {hidden : List Cell} (hI : I.Lawful hidden)
include hI

section SetAll

variable {cs : List Cell} (hcs : ∀ c ∈ cs, c ∈ hidden)
include hcs

theorem runAll_setAll {l : List Stmt} (hl : ∀ s ∈ l, ∀ c ∈ cs, s.mentions c = false) (e : Env V W) (xs : List V) :
    I.meaning.runAll l (e.setAll cs xs) = (I.meaning.runAll l e).setAll cs xs := by
  induction cs generalizing e xs with
  | nil => rfl
  | cons c cs ih =>
    cases xs with
    | nil => rfl
    | cons x xs =>
      have htail := ih (fun d hd => hcs d (.tail _ hd)) (fun s hs d hd => hl s hs d (.tail _ hd))
      rw [Env.setAll, Env.setAll, htail, hI.runAll_set (hcs c (.head _)) fun s hs => hl s hs c (.head _)]

theorem decide_setAll {a : Expr} (ha : ∀ c ∈ cs, a.count c = 0) (e : Env V W) (xs : List V) :
    I.meaning.decide a (e.setAll cs xs) =
      { I.meaning.decide a e with state := (I.meaning.decide a e).state.setAll cs xs } := by
  induction cs generalizing e xs with
  | nil => rfl
  | cons c cs ih =>
    cases xs with
    | nil => rfl
    | cons x xs =>
      have htail := ih (fun d hd => hcs d (.tail _ hd)) (fun d hd => ha d (.tail _ hd))
      rw [Env.setAll, htail, hI.decide_set (hcs c (.head _)) (ha c (.head _)), Env.setAll]

theorem turn_setAll {p : Proto} {b : BlockId} (hb : ∀ t ∈ (p.jump b).condition?, ∀ c ∈ cs, t.count c = 0)
    (e : Env V W) (xs : List V) :
    p.turn I b (e.setAll cs xs) = ((p.turn I b e).1, (p.turn I b e).2.setAll cs xs) := by
  rw [Proto.turn, Proto.turn]
  cases hj : p.jump b with
  | always t => rfl
  | branch t a b =>
    rw [hj] at hb
    simp [Jump.follow, hI.decide_setAll hcs (hb t rfl)]
  | leave => rfl

theorem sights_setAll {l : List Stmt} (hl : ∀ s ∈ l, ∀ c ∈ cs, s.mentions c = false) (e : Env V W) (xs : List V) :
    I.sights hidden l (e.setAll cs xs) = I.sights hidden l e := by
  induction l generalizing e with
  | nil => rfl
  | cons s l ih =>
    have hrun : I.meaning.run s (e.setAll cs xs) = (I.meaning.run s e).setAll cs xs :=
      hI.runAll_setAll hcs (List.forall_mem_singleton.2 (hl s (.head _))) e xs
    simp only [sights, Env.apart_setAll hcs, hrun, ih fun t ht => hl t (.tail _ ht)]

end SetAll

end Interpretation.Lawful

theorem singleInitializers?_cons {s : Stmt} {ss : List Stmt} {c : Cell} {cs : List Cell} {as : List Expr}
    (h : singleInitializers? (s :: ss) (c :: cs) = some as) : ∃ a as', s.singleCell? = some (c, a) ∧
      a.count c = 0 ∧ singleInitializers? ss cs = some as' ∧ as = a :: as' := by
  rw [singleInitializers?] at h
  split at h
  · next d a hs =>
    split at h
    · next hd =>
      obtain ⟨rfl, hcount⟩ := hd
      obtain ⟨as', has, rfl⟩ := Option.map_eq_some_iff.1 h
      exact ⟨a, as', hs, hcount, has, rfl⟩
    · cases h
  · cases h

namespace Interpretation.Lawful

variable {I : Interpretation V W} {hidden : List Cell} (hI : I.Lawful hidden)
include hI

theorem run_single {s : Stmt} {c : Cell} {a : Expr} (hs : s.singleCell? = some (c, a)) (e : Env V W) :
    I.meaning.run s e = (I.eval a e).2.set c (I.eval a e).1 := by
  obtain ⟨a', t, rfl, ht, hc, hv⟩ := Stmt.singleCell?_eq_some hs
  have htargets : a'.targets.map Expr.cell? = [c].map some := by simp [ht, hc]
  rw [hI.assign htargets (by simp [hv]), hv]
  rfl

theorem evalAll_set {c : Cell} (hc : c ∈ hidden) {as : List Expr} (h : ∀ a ∈ as, a.count c = 0) (e : Env V W) (x : V) :
    I.evalAll as (e.set c x) = ((I.evalAll as e).1, (I.evalAll as e).2.set c x) := by
  induction as generalizing e with
  | nil => rfl
  | cons a as ih => simp [evalAll, hI.eval_set hc (h a (.head _)), ih fun b hb => h b (.tail _ hb)]

theorem runAll_initializers {ss : List Stmt} {cs : List Cell} {as : List Expr}
    (h : singleInitializers? ss cs = some as) (hlen : ss.length = cs.length)
    (hread : ∀ s ∈ ss, ∀ c ∈ hidden, s.readCount c = 0) (hcs : ∀ c ∈ cs, c ∈ hidden) (e : Env V W) :
    I.meaning.runAll ss e = (I.evalAll as e).2.setAll cs (I.evalAll as e).1 ∧
      ∀ a ∈ as, ∀ c ∈ hidden, a.count c = 0 := by
  induction ss generalizing cs as e with
  | nil =>
    obtain rfl := List.eq_nil_of_length_eq_zero hlen.symm
    cases h
    exact ⟨rfl, by simp⟩
  | cons s ss ih =>
    cases cs with
    | nil => cases hlen
    | cons c cs =>
      obtain ⟨a, as', hs, -, has, rfl⟩ := singleInitializers?_cons h
      obtain ⟨hrun, hcount⟩ := ih (e := I.meaning.run s e) has (Nat.succ.inj hlen)
        (fun t ht => hread t (.tail _ ht)) (fun c hc => hcs c (.tail _ hc))
      have hc := hcs c (.head _)
      refine ⟨?_, List.forall_mem_cons.2 ⟨fun d hd => ?_, hcount⟩⟩
      · have hstep : I.meaning.runAll (s :: ss) e = I.meaning.runAll ss (I.meaning.run s e) := rfl
        rw [hstep, hrun, hI.run_single hs, hI.evalAll_set hc fun a ha => hcount a ha c hc]
        rfl
      · rw [← Stmt.readCount_of_singleCell? hs]
        exact hread s (.head _) d hd

end Interpretation.Lawful

theorem length_of_singleInitializers? {ss : List Stmt} {cs : List Cell} {as : List Expr}
    (h : singleInitializers? ss cs = some as) (hlen : ss.length = cs.length) : as.length = cs.length := by
  induction ss generalizing cs as with
  | nil =>
    obtain rfl := List.eq_nil_of_length_eq_zero hlen.symm
    cases h
    rfl
  | cons s ss ih =>
    cases cs with
    | nil => cases hlen
    | cons c cs =>
      obtain ⟨a, as', -, -, has, rfl⟩ := singleInitializers?_cons h
      simp [ih has (Nat.succ.inj hlen)]

theorem initializers?_eq_some {body : List Stmt} {cs : List Cell} {init : Initializers}
    (h : initializers? body cs = some init) :
    (∃ a, body.drop (body.length - init.statements) = [.assign a] ∧ a.targets.map Expr.cell? = cs.map some ∧
      a.values = init.values) ∨
    (body.drop (body.length - init.statements)).length = cs.length ∧
      singleInitializers? (body.drop (body.length - init.statements)) cs = some init.values := by
  rw [initializers?, Option.orElse_eq_orElse, Option.orElse_eq_or, Option.or_eq_some_iff] at h
  rcases h with h | ⟨-, h⟩
  · unfold jointInitializers? at h
    split at h
    · next a ha =>
      split at h
      · next hc =>
        cases h
        obtain ⟨rest, rfl⟩ := List.getLast?_eq_some_iff.1 ha
        exact .inl ⟨a, by simp, hc.1, rfl⟩
      · cases h
    · cases h
  · unfold separateInitializers? at h
    split at h
    · cases h
    · next hlen =>
      obtain ⟨values, hvalues, rfl⟩ := Option.map_eq_some_iff.1 h
      refine .inr ⟨?_, hvalues⟩
      simp only [List.length_drop]
      omega

end LuaLift
