import LuaLift.Proofs.Tree.Nodes
import LuaLift.Proofs.Tree.Positions
import Mathlib.Data.List.Nodup

/-!
Declarations are put in one position after the other, from the last one to the first. A position covers
only those that come after it, so that the tree is the same as if all of them were put in on one walk.
-/

namespace LuaLift

theorem pathLe_trans {p q r : Path} (h : pathLe p q = true) (h' : pathLe q r = true) : pathLe p r = true := by
  induction p generalizing q r with
  | nil => rfl
  | cons a p ih =>
    cases q with
    | nil => cases h
    | cons b q =>
      cases r with
      | nil => cases h'
      | cons c r =>
        have := @ih q r
        simp only [pathLe, Bool.or_eq_true, Bool.and_eq_true, decide_eq_true_eq] at h h' ⊢
        grind

theorem pathLe_total (p q : Path) : pathLe p q = true ∨ pathLe q p = true := by
  induction p generalizing q with
  | nil => exact .inl rfl
  | cons a p ih =>
    cases q with
    | nil => exact .inr rfl
    | cons b q =>
      have := ih q
      simp only [pathLe, Bool.or_eq_true, Bool.and_eq_true, decide_eq_true_eq]
      grind

theorem pathLe_antisymm {p q : Path} (h : pathLe p q = true) (h' : pathLe q p = true) : p = q := by
  induction p generalizing q with
  | nil =>
    cases q with
    | nil => rfl
    | cons b q => cases h'
  | cons a p ih =>
    cases q with
    | nil => cases h
    | cons b q =>
      have := @ih q
      simp only [pathLe, Bool.or_eq_true, Bool.and_eq_true, decide_eq_true_eq] at h h'
      grind

theorem pathLe_append_left (p q r : Path) : pathLe (p ++ q) (p ++ r) = pathLe q r := by
  induction p with
  | nil => rfl
  | cons a p ih => simp [pathLe, ih]

theorem pathLe_node {i j w : Nat} {r : Path} : pathLe [(i, 0)] ((j, w) :: r) = true ↔ i ≤ j := by
  have hw : 0 < w ∨ 0 = w := Nat.eq_zero_or_pos w |>.symm.imp_right Eq.symm
  simp only [pathLe, Bool.or_eq_true, Bool.and_eq_true, decide_eq_true_eq, and_true, hw]
  omega

namespace Position

theorem key_injective {q x : Position} (h : q.key = x.key) : q = x := by
  obtain ⟨hpath, hindex⟩ := List.append_inj' h rfl
  cases q
  cases x
  simp_all

theorem Covers.key_le {q x : Position} (h : q.Covers x) : pathLe q.key x.key = true := by
  obtain ⟨⟨r, hr⟩, hi⟩ := h
  rw [key, key, ← hr, List.append_assoc, pathLe_append_left]
  cases r with
  | nil => exact pathLe_node.2 (by simpa [indexBelow, ← hr] using hi)
  | cons s r => exact pathLe_node.2 (by simpa [indexBelow, ← hr] using hi)

end Position

namespace Node

theorem mem_declarationOrder {placed : List Placement} {q : Position} :
    q ∈ declarationOrder placed ↔ ∃ v, (v, q) ∈ placed := by
  rw [declarationOrder, List.mem_mergeSort]
  induction placed with
  | nil => simp
  | cons p placed ih =>
    obtain ⟨w, x⟩ := p
    simp only [List.map_cons, List.foldr_cons, List.mem_insert_iff, ih, List.mem_cons, Prod.mk.injEq]
    grind

theorem nodup_declarationOrder (placed : List Placement) : (declarationOrder placed).Nodup := by
  rw [declarationOrder, (List.mergeSort_perm _ _).nodup_iff]
  induction placed with
  | nil => exact .nil
  | cons p placed ih => exact ih.insert

theorem pairwise_declarationOrder (placed : List Placement) :
    (declarationOrder placed).Pairwise fun x q => ¬x.Covers q := by
  have hsorted : (declarationOrder placed).Pairwise fun x q => pathLe q.key x.key = true := by
    apply List.pairwise_mergeSort
    · intro x y z h h'
      exact pathLe_trans h' h
    · intro x q
      rw [Bool.or_eq_true]
      exact pathLe_total _ _
  refine (hsorted.and (nodup_declarationOrder placed)).imp ?_
  rintro x q ⟨hle, hne⟩ hcovers
  exact hne (Position.key_injective (pathLe_antisymm hcovers.key_le hle))

mutual

def declareIn (placed : List Placement) (path : Path) (i : Nat) : Node → Node
  | stmt s => stmt s
  | brk => brk
  | scope b => scope (declareFrom placed (path ++ [(i, 0)]) 0 b)
  | ifThen c b => ifThen c (declareFrom placed (path ++ [(i, 0)]) 0 b)
  | ifElse c a b =>
    ifElse c (declareFrom placed (path ++ [(i, 0)]) 0 a) (declareFrom placed (path ++ [(i, 1)]) 0 b)
  | whileDo c b => whileDo c (declareFrom placed (path ++ [(i, 0)]) 0 b)
  | repeatUntil b c => repeatUntil (declareFrom placed (path ++ [(i, 0)]) 0 b) c
  | numericFor v x y z b => numericFor v x y z (declareFrom placed (path ++ [(i, 0)]) 0 b)
  | genericFor vs es b => genericFor vs es (declareFrom placed (path ++ [(i, 0)]) 0 b)

def declareFrom (placed : List Placement) (path : Path) : Nat → List Node → List Node
  | i, [] => declaration (dueAt placed path i)
  | i, n :: rest =>
    let due := dueAt placed path i
    let n := declareIn placed path i n
    (if due.isEmpty then [n] else declaring due n) ++ declareFrom placed path (i + 1) rest

end

section Walk

variable {placed placed' : List Placement} {path : Path}

theorem declareIn_eq (path : Path) (i : Nat) (n : Node) : declareIn placed path i n =
    n.withBodies fun w b => declareFrom placed (path ++ [(i, w)]) 0 b := by
  cases n <;> rfl

theorem declareIn_congr : (∀ n path i,
      (∀ (x : Position) (w : Nat), path ++ [(i, w)] <+: x.path →
        dueAt placed x.path x.index = dueAt placed' x.path x.index) →
      declareIn placed path i n = declareIn placed' path i n) ∧
    ∀ b path i,
      (∀ x : Position, path <+: x.path → i ≤ x.indexBelow path.length →
        dueAt placed x.path x.index = dueAt placed' x.path x.index) →
      declareFrom placed path i b = declareFrom placed' path i b := by
  refine tree_induct (fun n ih path i h => ?_) (fun path i h => ?_) fun n rest ihn ih path i h => ?_
  · rw [declareIn_eq, declareIn_eq]
    exact withBodies_congr fun w b hb => ih b (List.mem_of_getElem? hb) _ 0 fun x hx _ => h x w hx
  · have hhere := h ⟨path, i⟩ List.prefix_rfl (Nat.le_of_eq (Position.indexBelow_length ⟨path, i⟩).symm)
    rw [declareFrom, declareFrom, hhere]
  · have hhere := h ⟨path, i⟩ List.prefix_rfl (Nat.le_of_eq (Position.indexBelow_length ⟨path, i⟩).symm)
    have hn := ihn path i fun x w hx =>
      h x (Position.within_of_prefix hx).1 (Nat.le_of_eq (Position.within_of_prefix hx).2.symm)
    have hrest := ih path (i + 1) fun x hx hi => h x hx (Nat.le_of_succ_le hi)
    rw [declareFrom, declareFrom, hhere, hn, hrest]

theorem declareIn_of_none : (∀ n path i, declareIn [] path i n = n) ∧ ∀ b path i, declareFrom [] path i b = b := by
  refine tree_induct (fun n ih path i => ?_) (fun path i => rfl) fun n rest ihn ih path i => ?_
  · rw [declareIn_eq]
    exact withBodies_eq_self fun w b hb => ih b (List.mem_of_getElem? hb) _ 0
  · rw [declareFrom, ihn, ih]
    rfl

theorem declareFrom_split {b : Body} {i m : Nat} {n : Node} (hn : b[m]? = some n)
    (hclear : ∀ j ≤ i + m, dueAt placed path j = [])
    (hsame : ∀ x : Position, path <+: x.path → x.indexBelow path.length ≠ i + m →
      dueAt placed x.path x.index = dueAt placed' x.path x.index) :
    ∃ front behind, front.length = m ∧
      declareFrom placed path i b = front ++ declareIn placed path (i + m) n :: behind ∧
      declareFrom placed' path i b = front ++
        ((if (dueAt placed' path (i + m)).isEmpty then [declareIn placed' path (i + m) n]
          else declaring (dueAt placed' path (i + m)) (declareIn placed' path (i + m) n)) ++ behind) := by
  induction m generalizing b i with
  | zero =>
    cases b with
    | nil => cases hn
    | cons n' rest =>
      cases hn
      have hrest : declareFrom placed path (i + 1) rest = declareFrom placed' path (i + 1) rest :=
        declareIn_congr.2 rest path (i + 1) fun x hx hi => hsame x hx (by omega)
      refine ⟨[], declareFrom placed path (i + 1) rest, rfl, ?_, ?_⟩
      · rw [declareFrom, hclear i (Nat.le_refl _)]
        rfl
      · rw [declareFrom, hrest]
        rfl
  | succ m ih =>
    cases b with
    | nil => cases hn
    | cons n' rest =>
      have he : i + 1 + m = i + (m + 1) := by omega
      obtain ⟨front, behind, hlength, hbefore, hafter⟩ := ih hn (he ▸ hclear) (he ▸ hsame)
      have hdue : dueAt placed path i = [] := hclear i (Nat.le_add_right _ _)
      have hdue' : dueAt placed' path i = [] := by
        rw [← hdue, ← hsame ⟨path, i⟩ List.prefix_rfl]
        rw [Position.indexBelow_length ⟨path, i⟩]
        simp
      have hin : declareIn placed path i n' = declareIn placed' path i n' :=
        declareIn_congr.1 n' path i fun x w hx => hsame x (Position.within_of_prefix hx).1 (by
          rw [(Position.within_of_prefix hx).2]
          simp)
      refine ⟨declareIn placed path i n' :: front, behind, by rw [List.length_cons, hlength], ?_, ?_⟩
      · rw [declareFrom, hdue, hbefore, he]
        rfl
      · rw [declareFrom, hdue', hafter, hin, he]
        rfl

/-- Nothing has gone in yet that the position stands behind, and everything else is in. -/
structure Pending (placed placed' : List Placement) (q : Position) : Prop where
  clear : ∀ x : Position, x.Covers q → dueAt placed x.path x.index = []
  same : ∀ x : Position, x ≠ q → dueAt placed x.path x.index = dueAt placed' x.path x.index
  due : dueAt placed' q.path q.index ≠ []

theorem Pending.split {q : Position} (h : Pending placed placed' q) (hq : path <+: q.path) {b : Body} {m : Nat} {n : Node}
    (hm : q.indexBelow path.length = m) (hn : b[m]? = some n) :
    ∃ front behind, front.length = m ∧
      declareFrom placed path 0 b = front ++ declareIn placed path m n :: behind ∧
      declareFrom placed' path 0 b = front ++
        ((if (dueAt placed' path m).isEmpty then [declareIn placed' path m n]
          else declaring (dueAt placed' path m) (declareIn placed' path m n)) ++ behind) := by
  have hclear (j : Nat) (hj : j ≤ 0 + m) : dueAt placed path j = [] :=
    h.clear ⟨path, j⟩ ⟨hq, hm ▸ Nat.zero_add m ▸ hj⟩
  have hsame (x : Position) (_ : path <+: x.path) (hi : x.indexBelow path.length ≠ 0 + m) :
      dueAt placed x.path x.index = dueAt placed' x.path x.index := by
    refine h.same x ?_
    rintro rfl
    exact hi (hm.trans (Nat.zero_add m).symm)
  have hsplit := declareFrom_split hn hclear hsame
  rwa [Nat.zero_add] at hsplit

theorem Pending.declareIn_eq {q : Position} (h : Pending placed placed' q) (n : Node) :
    declareIn placed q.path q.index n = declareIn placed' q.path q.index n := by
  refine declareIn_congr.1 n q.path q.index fun x w hx => h.same x ?_
  rintro rfl
  have := hx.length_le
  simp only [List.length_append, List.length_singleton] at this
  omega

theorem Pending.declareFrom_eq {q : Position} (h : Pending placed placed' q) (hq : ¬path <+: q.path) (b : Body) :
    declareFrom placed path 0 b = declareFrom placed' path 0 b := by
  refine declareIn_congr.2 b path 0 fun x hx _ => h.same x ?_
  rintro rfl
  exact hq hx

theorem modify_append (f : Node → Node) (front behind : Body) (n : Node) :
    (front ++ n :: behind).modify front.length f = front ++ f n :: behind := by
  induction front with
  | nil => rfl
  | cons a front ih => rw [List.cons_append, List.length_cons, List.modify_succ_cons, ih, List.cons_append]

theorem changeAt_declareFrom {q : Position} (h : Pending placed placed' q) (path : Path) {rest : Path} {b : Body}
    {n : Node} (hq : q.path = path ++ rest) (hn : nodeAt? b ⟨rest, q.index⟩ = some n) :
    changeAt (declareHere (dueAt placed' q.path q.index) q.index) rest (declareFrom placed path 0 b) =
      declareFrom placed' path 0 b := by
  have hstart : path <+: q.path := ⟨rest, hq.symm⟩
  induction rest generalizing path b with
  | nil =>
    rw [List.append_nil] at hq
    subst hq
    obtain ⟨front, behind, hlength, hbefore, hafter⟩ := h.split hstart q.indexBelow_length hn
    rw [hbefore, hafter, h.declareIn_eq, if_neg (by simpa using h.due)]
    simp [changeAt, declareHere, ← hlength]
  | cons s rest ih =>
    obtain ⟨i, w⟩ := s
    obtain ⟨c, hc, hk⟩ := Option.bind_eq_some_iff.1 hn
    unfold bodyAt? at hc
    split at hc
    · cases hc
    · next m hm =>
      split at hc
      · cases hc
      · next d hd =>
        have hbelow : q.indexBelow path.length = i := by simp [Position.indexBelow, hq]
        obtain ⟨front, behind, rfl, hbefore, hafter⟩ := h.split hstart hbelow hm
        have hnone : dueAt placed' path front.length = [] := by
          rw [← h.same ⟨path, front.length⟩, h.clear ⟨path, front.length⟩ ⟨hstart, Nat.le_of_eq hbelow.symm⟩]
          rintro rfl
          simp at hq
        have hin : (declareIn placed path front.length m).withBodies (fun w' b' =>
            if w' = w then changeAt (declareHere (dueAt placed' q.path q.index) q.index) rest b' else b') =
            declareIn placed' path front.length m := by
          rw [declareIn_eq, declareIn_eq, withBodies_withBodies]
          refine withBodies_congr fun w' b' hb' => ?_
          split
          · next he =>
            subst he
            obtain rfl : d = b' := Option.some.inj (hd.symm.trans hb')
            exact ih (path ++ [(front.length, w')]) (by rw [hq, List.append_assoc]; rfl) (by simp [nodeAt?, hc, hk])
              ⟨rest, by simp [hq]⟩
          · next he =>
            refine h.declareFrom_eq (fun hx => he ?_) b'
            rw [hq, List.prefix_append_right_inj, List.cons_prefix_cons] at hx
            exact congrArg Prod.snd hx.1
        rw [hbefore, hafter, hnone, changeAt, modify_append, hin]
        rfl

theorem dueAt_filter (qs : List Position) (x : Position) :
    dueAt (placed.filter (·.2 ∈ qs)) x.path x.index = if x ∈ qs then dueAt placed x.path x.index else [] := by
  rw [dueAt, dueAt, List.filter_filter]
  split
  · next hx =>
    congr 1
    refine List.filter_congr fun p _ => ?_
    by_cases hp : p.2 = x <;> simp [hp, hx]
  · next hx =>
    rw [List.map_eq_nil_iff, List.filter_eq_nil_iff]
    rintro p -
    by_cases hp : p.2 = x <;> simp [hp, hx]

theorem dueAt_ne_nil {q : Position} (hq : q ∈ declarationOrder placed) : dueAt placed q.path q.index ≠ [] := by
  obtain ⟨v, hv⟩ := mem_declarationOrder.1 hq
  rw [dueAt, ne_eq, List.map_eq_nil_iff, List.filter_eq_nil_iff]
  exact fun h => h _ hv (by simp)

theorem foldl_declareAt {root : Body} (done : List Position) {todo : List Position} (hp : todo.Pairwise fun x q => ¬x.Covers q)
    (hdone : ∀ x ∈ done, ∀ q ∈ todo, ¬x.Covers q) (hdue : ∀ q ∈ todo, dueAt placed q.path q.index ≠ [])
    (hstand : ∀ q ∈ todo, Standing root q) :
    todo.foldl (declareAt placed) (declareFrom (placed.filter (·.2 ∈ done)) [] 0 root) =
      declareFrom (placed.filter (·.2 ∈ todo.reverse ++ done)) [] 0 root := by
  induction todo generalizing done with
  | nil => rfl
  | cons q todo ih =>
    obtain ⟨hq, hp⟩ := List.pairwise_cons.1 hp
    simp only [List.forall_mem_cons] at hdue hstand
    obtain ⟨n, hn⟩ := hstand.1
    have hlater : dueAt (placed.filter (·.2 ∈ q :: done)) q.path q.index = dueAt placed q.path q.index := by
      rw [dueAt_filter, if_pos (.head _)]
    have hpending : Pending (placed.filter (·.2 ∈ done)) (placed.filter (·.2 ∈ q :: done)) q := by
      refine ⟨fun x hx => ?_, fun x hx => ?_, hlater ▸ hdue.1⟩
      · rw [dueAt_filter, if_neg fun hd => hdone x hd q (.head _) hx]
      · rw [dueAt_filter, dueAt_filter]
        simp only [List.mem_cons, hx, false_or]
    have hstep := changeAt_declareFrom hpending [] rfl hn
    rw [hlater] at hstep
    rw [List.foldl_cons, declareAt, hstep, ih (q :: done) hp ?_ hdue.2 hstand.2, List.reverse_cons, List.append_assoc]
    · rfl
    · intro x hx y hy
      rcases List.mem_cons.1 hx with rfl | hx
      · exact hq y hy
      · exact hdone x hx y (.tail _ hy)

end Walk

end Node

/-- Every variable is declared as on one walk over the tree. -/
theorem Routine.body_declare (r : Routine) :
    r.declare.body = Node.declareFrom (Node.placements r.body r.locals) [] 0 r.body := by
  let placed := Node.placements r.body r.locals
  have hstand (q : Position) (hq : q ∈ Node.declarationOrder placed) : Node.Standing r.body q := by
    obtain ⟨v, hv⟩ := Node.mem_declarationOrder.1 hq
    obtain ⟨w, -, hw⟩ := List.mem_filterMap.1 hv
    exact (Node.placement?_spec hw).2.1
  have hfold := Node.foldl_declareAt [] (Node.pairwise_declarationOrder placed) (fun x hx => by cases hx)
    (fun q => Node.dueAt_ne_nil) hstand
  have hnone : placed.filter (·.2 ∈ ([] : List Position)) = [] := by simp
  have hall : placed.filter (·.2 ∈ (Node.declarationOrder placed).reverse ++ []) = placed := by
    rw [List.append_nil, List.filter_eq_self]
    rintro ⟨v, q⟩ hv
    simpa using Node.mem_declarationOrder.2 ⟨v, hv⟩
  rw [hnone, hall, Node.declareIn_of_none.2] at hfold
  exact hfold

end LuaLift
