import LuaLift.Tree.Declare

namespace LuaLift

namespace Position

/-- A position comes before another one or is the same, in the same body or in one around it. -/
def Covers (q x : Position) : Prop := q.path <+: x.path ∧ q.index ≤ x.indexBelow q.path.length

def Passed (q x : Position) : Prop := q.Covers x ∧ q ≠ x

theorem indexBelow_length (x : Position) : x.indexBelow x.path.length = x.index := by
  simp [indexBelow]

theorem indexBelow_congr {x y : Position} (h : x.path <+: y.path) {d : Nat} (hd : d < x.path.length) :
    y.indexBelow d = x.indexBelow d := by
  obtain ⟨l, hl⟩ := h
  simp [indexBelow, ← hl, List.getElem?_append_left hd, List.getElem?_eq_getElem hd]

theorem Covers.refl (q : Position) : q.Covers q := ⟨List.prefix_rfl, Nat.le_of_eq (indexBelow_length q).symm⟩

theorem Covers.trans {q x y : Position} (h : q.Covers x) (h' : x.Covers y) : q.Covers y := by
  refine ⟨h.1.trans h'.1, ?_⟩
  rcases Nat.lt_or_ge q.path.length x.path.length with hlt | hge
  · rw [indexBelow_congr h'.1 hlt]
    exact h.2
  · have he : q.path = x.path := h.1.eq_of_length (Nat.le_antisymm h.1.length_le hge)
    have hq := h.2
    rw [he, indexBelow_length] at hq
    rw [he]
    exact Nat.le_trans hq h'.2

theorem covers_of_path_eq {q : Position} {path : Path} (h : q.path = path) (i : Nat) :
    q.Covers ⟨path, i⟩ ↔ q.index ≤ i := by
  subst h
  simp [Covers, indexBelow]

theorem covers_of_path_ne {q : Position} {path : Path} (h : q.path ≠ path) (i j : Nat) :
    q.Covers ⟨path, i⟩ ↔ q.Covers ⟨path, j⟩ := by
  refine and_congr_right fun hp => ?_
  have hlt : q.path.length < path.length :=
    Nat.lt_of_le_of_ne hp.length_le fun hl => h (hp.eq_of_length hl)
  simp [indexBelow, hlt]

theorem covers_succ {q : Position} {path : Path} {i : Nat} :
    q.Covers ⟨path, i + 1⟩ ↔ q.Covers ⟨path, i⟩ ∨ q = ⟨path, i + 1⟩ := by
  by_cases h : q.path = path
  · rw [covers_of_path_eq h, covers_of_path_eq h]
    obtain ⟨p, k⟩ := q
    cases h
    simp only [mk.injEq, true_and]
    omega
  · have hne : q ≠ ⟨path, i + 1⟩ := fun he => h (by rw [he])
    rw [covers_of_path_ne h (i + 1) i, or_iff_left hne]

theorem covers_inside {q : Position} {path : Path} {i w : Nat} :
    q.Covers ⟨path ++ [(i, w)], 0⟩ ↔ q.Covers ⟨path, i⟩ ∨ q = ⟨path ++ [(i, w)], 0⟩ := by
  by_cases h : q.path = path ++ [(i, w)]
  · have hnot : ¬ q.path <+: path := by
      intro hp
      have := hp.length_le
      simp only [h, List.length_append, List.length_singleton] at this
      omega
    have hc : ¬ q.Covers ⟨path, i⟩ := fun hc => hnot hc.1
    rw [covers_of_path_eq h, or_iff_right hc, Nat.le_zero]
    constructor
    · intro hi
      rw [← h, ← hi]
    · intro he
      rw [he]
  · have hne : q ≠ ⟨path ++ [(i, w)], 0⟩ := fun he => h (by rw [he])
    simp only [hne, or_false]
    simp only [Covers, List.prefix_concat_iff, h, false_or]
    refine and_congr_right fun hp => ?_
    rcases Nat.lt_or_ge q.path.length path.length with hlt | hge
    · simp [indexBelow, List.getElem?_append_left hlt, hlt]
    · have he : q.path.length = path.length := Nat.le_antisymm hp.length_le hge
      simp [indexBelow, he]

theorem passed_succ {q : Position} {path : Path} {i : Nat} :
    q.Passed ⟨path, i + 1⟩ ↔ q.Covers ⟨path, i⟩ := by
  rw [Passed, covers_succ]
  constructor
  · rintro ⟨h | h, hne⟩
    · exact h
    · exact absurd h hne
  · refine fun h => ⟨.inl h, ?_⟩
    rintro rfl
    exact absurd ((covers_of_path_eq rfl i).1 h) (Nat.not_succ_le_self i)

theorem passed_inside {q : Position} {path : Path} {i w : Nat} :
    q.Passed ⟨path ++ [(i, w)], 0⟩ ↔ q.Covers ⟨path, i⟩ := by
  rw [Passed, covers_inside]
  constructor
  · rintro ⟨h | h, hne⟩
    · exact h
    · exact absurd h hne
  · refine fun h => ⟨.inl h, ?_⟩
    rintro rfl
    have := h.1.length_le
    simp only [List.length_append, List.length_singleton] at this
    omega

theorem covers_iff_passed {q x : Position} : q.Covers x ↔ q.Passed x ∨ q = x := by
  by_cases h : q = x
  · simp [h, Covers.refl]
  · simp [Passed, h]

def Within (x : Position) (path : Path) (i : Nat) : Prop := path <+: x.path ∧ x.indexBelow path.length = i

theorem within_self (path : Path) (i : Nat) : Within ⟨path, i⟩ path i :=
  ⟨List.prefix_rfl, indexBelow_length ⟨path, i⟩⟩

theorem within_of_prefix {x : Position} {path : Path} {i w : Nat} (h : path ++ [(i, w)] <+: x.path) :
    x.Within path i := by
  obtain ⟨l, hl⟩ := h
  refine ⟨⟨(i, w) :: l, by rw [← hl, List.append_assoc]; rfl⟩, ?_⟩
  simp [indexBelow, ← hl]

theorem Within.covers {x : Position} {path : Path} {i j : Nat} (h : x.Within path i) (hj : j ≤ i) :
    (⟨path, j⟩ : Position).Covers x :=
  ⟨h.1, h.2 ▸ hj⟩

theorem Covers.within {q x : Position} {path : Path} {i : Nat} (h : q.Covers x) (hp : path <+: q.path)
    (hne : q.path ≠ path) (hx : x.Within path i) : q.Within path i := by
  have hlt : path.length < q.path.length :=
    Nat.lt_of_le_of_ne hp.length_le fun hl => hne (hp.eq_of_length hl).symm
  exact ⟨hp, (indexBelow_congr h.1 hlt).symm.trans hx.2⟩

theorem Covers.indexBelow_le {q x : Position} {path : Path} {i : Nat} (h : q.Covers x) (hp : path <+: q.path)
    (hx : x.Within path i) : q.indexBelow path.length ≤ i := by
  by_cases hne : q.path = path
  · subst hne
    rw [indexBelow_length]
    exact hx.2 ▸ h.2
  · exact Nat.le_of_eq (h.within hp hne hx).2

theorem not_passed_start (q : Position) : ¬ q.Passed ⟨[], 0⟩ := by
  rintro ⟨⟨hp, hi⟩, hne⟩
  obtain ⟨path, i⟩ := q
  obtain rfl : path = [] := List.prefix_nil.1 hp
  have : i = 0 := Nat.le_zero.1 hi
  exact hne (by rw [this])

end Position

theorem commonPath_prefix (p q : Path) : commonPath p q <+: p ∧ commonPath p q <+: q := by
  induction p generalizing q with
  | nil => simp [commonPath]
  | cons a p ih =>
    cases q with
    | nil => simp [commonPath]
    | cons b q =>
      unfold commonPath
      split
      · next h =>
        subst h
        simpa using ih q
      · simp

theorem foldl_commonPath_prefix (l : List Position) (p : Path) :
    l.foldl (fun p r => commonPath p r.path) p <+: p ∧
      ∀ r ∈ l, l.foldl (fun p r => commonPath p r.path) p <+: r.path := by
  induction l generalizing p with
  | nil => simp
  | cons r l ih =>
    obtain ⟨h1, h2⟩ := ih (commonPath p r.path)
    obtain ⟨h3, h4⟩ := commonPath_prefix p r.path
    refine ⟨h1.trans h3, fun x hx => ?_⟩
    rcases List.mem_cons.1 hx with rfl | hx
    · exact h1.trans h4
    · exact h2 x hx

theorem foldl_min_le (g : Position → Nat) (l : List Position) (i : Nat) :
    l.foldl (fun i r => min i (g r)) i ≤ i ∧ ∀ r ∈ l, l.foldl (fun i r => min i (g r)) i ≤ g r := by
  induction l generalizing i with
  | nil => simp
  | cons r l ih =>
    obtain ⟨h1, h2⟩ := ih (min i (g r))
    refine ⟨Nat.le_trans h1 (Nat.min_le_left _ _), fun x hx => ?_⟩
    rcases List.mem_cons.1 hx with rfl | hx
    · exact Nat.le_trans h1 (Nat.min_le_right _ _)
    · exact h2 x hx

theorem covers_of_commonPosition? {l : List Position} {q : Position} (h : commonPosition? l = some q) :
    ∀ x ∈ l, q.Covers x := by
  cases l with
  | nil => cases h
  | cons r l =>
    cases h
    obtain ⟨h1, h2⟩ := foldl_commonPath_prefix l r.path
    obtain ⟨h3, h4⟩ := foldl_min_le
      (Position.indexBelow (l.foldl (fun p r => commonPath p r.path) r.path).length) l _
    intro x hx
    rcases List.mem_cons.1 hx with rfl | hx
    · exact ⟨h1, h3⟩
    · exact ⟨h2 x hx, h4 x hx⟩

namespace Node

theorem hoist_covers (root : Body) (v : LocalId) (up : List (Nat × Nat)) (i : Nat) :
    (hoist root v up i).Covers ⟨up.reverse, i⟩ := by
  have outwards (j w i : Nat) (up : List (Nat × Nat)) :
      (⟨up.reverse, j⟩ : Position).Covers ⟨((j, w) :: up).reverse, i⟩ := by
    refine ⟨by simp, ?_⟩
    simp [Position.indexBelow]
  induction up generalizing i with
  | nil => exact .refl _
  | cons step up ih =>
    obtain ⟨j, w⟩ := step
    unfold hoist
    simp only
    split
    · exact .refl _
    · split
      · split
        · split
          · exact outwards j w i up
          · exact (ih j).trans (outwards j w i up)
        · exact (ih j).trans (outwards j w i up)
      · exact .refl _

theorem covers_of_placement? {root : Body} {os : List Occurrence} {v w : LocalId} {q : Position}
    (h : placement? root os v = some (w, q)) : w = v ∧ ∀ o ∈ os, o.var = v → q.Covers o.position := by
  unfold placement? at h
  obtain ⟨x, hx, he⟩ := Option.map_eq_some_iff.1 h
  cases he
  refine ⟨rfl, fun o ho hv => ?_⟩
  have hcover := covers_of_commonPosition? hx o.position
    (List.mem_map.2 ⟨o, List.mem_filter.2 ⟨ho, by simpa using hv⟩, rfl⟩)
  have := hoist_covers root v x.path.reverse x.index
  rw [List.reverse_reverse] at this
  exact this.trans hcover

theorem bodyAt?_append {root : Body} {p p' : Path} :
    bodyAt? root (p ++ p') = (bodyAt? root p).bind fun b => bodyAt? b p' := by
  induction p generalizing root with
  | nil => simp [bodyAt?]
  | cons s p ih =>
    obtain ⟨i, w⟩ := s
    simp only [List.cons_append, bodyAt?]
    cases hi : root[i]? with
    | none => rfl
    | some n =>
      cases hw : n.bodies[w]? with
      | none => simp [hw]
      | some b => simp [hw, ih]

theorem bodyAt?_inside {root full b : Body} {p : Path} {i w : Nat} {n : Node} (h : bodyAt? root p = some full)
    (hn : full[i]? = some n) (hb : n.bodies[w]? = some b) : bodyAt? root (p ++ [(i, w)]) = some b := by
  simp [bodyAt?_append, h, bodyAt?, hn, hb]

def Standing (root : Body) (q : Position) : Prop := ∃ n, nodeAt? root q = some n

theorem standing_iff {root : Body} {q : Position} :
    Standing root q ↔ ∃ b, bodyAt? root q.path = some b ∧ q.index < b.length := by
  simp only [Standing, nodeAt?, Option.bind_eq_some_iff]
  constructor
  · rintro ⟨n, b, hb, hn⟩
    exact ⟨b, hb, (List.getElem?_eq_some_iff.1 hn).1⟩
  · rintro ⟨b, hb, hi⟩
    exact ⟨b[q.index], b, hb, List.getElem?_eq_getElem hi⟩

theorem standing_of_bodyAt? {root b : Body} {p : Path} (h : bodyAt? root p = some b) {d : Nat}
    (hd : d < p.length) : Standing root ⟨p.take d, (p[d]).1⟩ := by
  have hp : p = p.take d ++ p[d] :: p.drop (d + 1) := by simp
  rw [hp, bodyAt?_append] at h
  obtain ⟨full, hfull, hrest⟩ := Option.bind_eq_some_iff.1 h
  refine standing_iff.2 ⟨full, hfull, ?_⟩
  unfold bodyAt? at hrest
  split at hrest
  · cases hrest
  · next n hn => exact (List.getElem?_eq_some_iff.1 hn).1

theorem standing_of_covers_path {root b : Body} {q : Position} {p : Path} (h : bodyAt? root p = some b)
    (hp : q.path <+: p) (hlt : q.path.length < p.length) (hi : q.index ≤ (p[q.path.length]).1) :
    Standing root q := by
  have hs := standing_of_bodyAt? h hlt
  have ht : p.take q.path.length = q.path := (List.prefix_iff_eq_take.1 hp).symm
  rw [ht] at hs
  obtain ⟨c, hc, hlt⟩ := standing_iff.1 hs
  exact standing_iff.2 ⟨c, hc, Nat.lt_of_le_of_lt hi hlt⟩

def AtTest (root : Body) (v : LocalId) (q : Position) : Prop :=
  ∃ up j b c, nodeAt? root ⟨up, j⟩ = some (repeatUntil b c) ∧ v ∈ c.vars ∧ q = ⟨up ++ [(j, 0)], b.length⟩

theorem AtTest.bodyAt? {root : Body} {v : LocalId} {q : Position} (h : AtTest root v q) :
    ∃ b, Node.bodyAt? root q.path = some b ∧ q.index = b.length := by
  obtain ⟨up, j, b, c, hn, -, rfl⟩ := h
  obtain ⟨full, hfull, hj⟩ := Option.bind_eq_some_iff.1 hn
  exact ⟨b, bodyAt?_inside hfull hj rfl, rfl⟩

theorem standing_of_covers {root : Body} {v : LocalId} {q x : Position} (h : q.Covers x)
    (hx : Standing root x ∨ AtTest root v x) : Standing root q ∨ AtTest root v q := by
  obtain ⟨b, hb, hi⟩ : ∃ b, Node.bodyAt? root x.path = some b ∧ x.index ≤ b.length := by
    rcases hx with hx | hx
    · obtain ⟨b, hb, hi⟩ := standing_iff.1 hx
      exact ⟨b, hb, Nat.le_of_lt hi⟩
    · obtain ⟨b, hb, hi⟩ := hx.bodyAt?
      exact ⟨b, hb, Nat.le_of_eq hi⟩
  rcases Nat.lt_or_ge q.path.length x.path.length with hlt | hge
  · refine .inl (standing_of_covers_path hb h.1 hlt ?_)
    have := h.2
    simpa [Position.indexBelow, hlt] using this
  · have he : q.path = x.path := h.1.eq_of_length (Nat.le_antisymm h.1.length_le hge)
    have hle : q.index ≤ x.index := (Position.covers_of_path_eq he x.index).1 h
    rcases hx with hx | hx
    · obtain ⟨c, hc, hlt⟩ := standing_iff.1 hx
      exact .inl (standing_iff.2 ⟨c, he ▸ hc, Nat.lt_of_le_of_lt hle hlt⟩)
    · obtain ⟨c, hc, hx'⟩ := hx.bodyAt?
      rcases Nat.lt_or_eq_of_le hle with hlt | heq
      · exact .inl (standing_iff.2 ⟨c, he ▸ hc, hx' ▸ hlt⟩)
      · obtain ⟨p, k⟩ := q
        cases he
        cases heq
        exact .inr hx

theorem hoist_standing {root : Body} {v : LocalId} {up : List (Nat × Nat)} {i : Nat}
    (h : Standing root ⟨up.reverse, i⟩) : Standing root (hoist root v up i) := by
  induction up generalizing i with
  | nil => exact h
  | cons step up ih =>
    obtain ⟨j, w⟩ := step
    have hup : Standing root ⟨up.reverse, j⟩ := by
      obtain ⟨b, hb, -⟩ := standing_iff.1 h
      refine standing_of_covers_path hb (by simp) (by simp) ?_
      simp
    unfold hoist
    simp only
    split
    · exact h
    · split
      · split
        · split
          · exact hup
          · exact ih hup
        · exact ih hup
      · exact h

theorem hoist_atTest {root : Body} {v : LocalId} {up : List (Nat × Nat)} {i : Nat}
    (h : AtTest root v ⟨up.reverse, i⟩) : Standing root (hoist root v up i) := by
  obtain ⟨path, j, b, c, hn, hv, he⟩ := h
  simp only [Position.mk.injEq] at he
  obtain ⟨hpath, rfl⟩ := he
  obtain rfl : up = (j, 0) :: path.reverse := by
    rw [← List.reverse_reverse up, hpath]
    simp
  have hbody : bodyAt? root (((j, 0) :: path.reverse).reverse) = some b := by
    obtain ⟨full, hfull, hj⟩ := Option.bind_eq_some_iff.1 hn
    rw [hpath]
    exact bodyAt?_inside hfull hj rfl
  have hread : readFirst root v ⟨((j, 0) :: path.reverse).reverse, b.length⟩ b = true := by
    have hcount : 0 < c.count ⟨.var, v⟩ := List.count_pos_iff.2 hv
    simp [readFirst, hn, scanAll, readBy, hcount]
  unfold hoist
  simp only [hbody, hread, if_true, List.reverse_reverse, hn, isLoop]
  exact ⟨_, hn⟩

def Occurs (root : Body) (o : Occurrence) : Prop := Standing root o.position ∨ AtTest root o.var o.position

theorem occurs_at {root : Body} {path : Path} {i : Nat} {n : Node} (h : nodeAt? root ⟨path, i⟩ = some n)
    {vs : List LocalId} : ∀ o ∈ occurAt path i vs, Occurs root o := by
  intro o ho
  obtain ⟨v, -, rfl⟩ := List.mem_map.1 ho
  exact .inl ⟨n, h⟩

theorem bodyAt?_of_nodeAt? {root : Body} {path : Path} {i w : Nat} {n : Node} {b : Body}
    (h : nodeAt? root ⟨path, i⟩ = some n) (hb : n.bodies[w]? = some b) :
    bodyAt? root (path ++ [(i, w)]) = some b := by
  obtain ⟨full, hfull, hi⟩ := Option.bind_eq_some_iff.1 h
  exact bodyAt?_inside hfull hi hb

mutual

theorem occurs_of_mem_occurrencesIn {root : Body} {path : Path} {i : Nat} : {n : Node} →
    nodeAt? root ⟨path, i⟩ = some n → ∀ o ∈ occurrencesIn path i n, Occurs root o
  | .stmt s, h => occurs_at h
  | .brk, _ => by simp [occurrencesIn]
  | .scope b, h => occurs_of_mem_occurrencesFrom (bodyAt?_of_nodeAt? h rfl) rfl
  | .ifThen c b, h => by
    simp only [occurrencesIn, List.forall_mem_append]
    exact ⟨occurs_at h, occurs_of_mem_occurrencesFrom (bodyAt?_of_nodeAt? h rfl) rfl⟩
  | .ifElse c a b, h => by
    simp only [occurrencesIn, List.forall_mem_append]
    exact ⟨⟨occurs_at h, occurs_of_mem_occurrencesFrom (bodyAt?_of_nodeAt? h rfl) rfl⟩,
      occurs_of_mem_occurrencesFrom (bodyAt?_of_nodeAt? h rfl) rfl⟩
  | .whileDo c b, h => by
    simp only [occurrencesIn, List.forall_mem_append]
    exact ⟨occurs_at h, occurs_of_mem_occurrencesFrom (bodyAt?_of_nodeAt? h rfl) rfl⟩
  | .repeatUntil b c, h => by
    simp only [occurrencesIn, List.forall_mem_append]
    refine ⟨occurs_of_mem_occurrencesFrom (bodyAt?_of_nodeAt? h rfl) rfl, fun o ho => .inr ?_⟩
    obtain ⟨v, hv, rfl⟩ := List.mem_map.1 ho
    exact ⟨path, i, b, c, h, hv, rfl⟩
  | .numericFor v x y z b, h => by
    simp only [occurrencesIn, List.forall_mem_append]
    exact ⟨occurs_at h, occurs_of_mem_occurrencesFrom (bodyAt?_of_nodeAt? h rfl) rfl⟩
  | .genericFor vs es b, h => by
    simp only [occurrencesIn, List.forall_mem_append]
    exact ⟨occurs_at h, occurs_of_mem_occurrencesFrom (bodyAt?_of_nodeAt? h rfl) rfl⟩

theorem occurs_of_mem_occurrencesFrom {root : Body} {path : Path} {full : Body} {i : Nat} : {b : List Node} →
    bodyAt? root path = some full → full.drop i = b → ∀ o ∈ occurrencesFrom path i b, Occurs root o
  | [], _, _ => by simp [occurrencesFrom]
  | n :: rest, h, hb => by
    have hn : full[i]? = some n := by
      have : (full.drop i)[0]? = full[i]? := List.getElem?_drop
      rw [hb] at this
      exact this.symm
    have hrest : full.drop (i + 1) = rest := by
      rw [← List.drop_drop, hb]
      rfl
    simp only [occurrencesFrom, List.forall_mem_append]
    refine ⟨occurs_of_mem_occurrencesIn ?_, occurs_of_mem_occurrencesFrom h hrest⟩
    simp [nodeAt?, h, hn]

end

theorem placement?_spec {root : Body} {v w : LocalId} {q : Position}
    (h : placement? root (occurrencesFrom [] 0 root) v = some (w, q)) : w = v ∧ Standing root q ∧
      ∀ o ∈ occurrencesFrom [] 0 root, o.var = v → q.Covers o.position := by
  obtain ⟨rfl, hcovers⟩ := covers_of_placement? h
  refine ⟨rfl, ?_, hcovers⟩
  obtain ⟨x, hx, he⟩ := Option.map_eq_some_iff.1 h
  cases he
  -- Some occurrence is there, and the common position covers it.
  cases hl : (occurrencesFrom [] 0 root).filter (·.var = w) with
  | nil => simp [hl, commonPosition?] at hx
  | cons o l =>
    have hmem : o ∈ (occurrencesFrom [] 0 root).filter (·.var = w) := by simp [hl]
    obtain ⟨ho, hv⟩ := List.mem_filter.1 hmem
    have hw : o.var = w := by simpa using hv
    have hcover := covers_of_commonPosition? hx o.position (List.mem_map_of_mem hmem)
    have hoccurs : Occurs root o := occurs_of_mem_occurrencesFrom rfl (List.drop_zero : root.drop 0 = root) o ho
    have hstand : Standing root x ∨ AtTest root w x := standing_of_covers hcover (hw ▸ hoccurs)
    obtain ⟨path, i⟩ := x
    simp only
    rcases hstand with hs | ht
    · exact hoist_standing (by rwa [List.reverse_reverse])
    · exact hoist_atTest (by rwa [List.reverse_reverse])

end Node

end LuaLift
