import LuaLift.Proofs.Slots.Resolve

/-!
Names of variables. Among the variables of one slot a number behind the name tells the later ones from the first.
Nothing tells variables of two slots apart, so that the names are distinct where those that come with the function
keep apart by themselves.
-/

namespace LuaLift

def numberedName (base : String) (k : Nat) : String := if k = 0 then base else base ++ "_" ++ toString k

theorem toList_numberedName (base : String) {k : Nat} (hk : k ≠ 0) :
    (numberedName base k).toList = base.toList ++ '_' :: (toString k).toList := by
  rw [numberedName, if_neg hk, String.toList_append, String.toList_append, List.append_assoc]
  rfl

theorem underscore_not_mem_repr (k : Nat) : '_' ∉ (toString k).toList := by
  rw [Nat.toString_eq_repr, Nat.toList_repr]
  intro h
  exact absurd (Nat.isDigit_of_mem_toDigits (by decide) (by decide) h) (by decide)

theorem numberedName_inj {base base' : String} (h : '_' ∉ base.toList) (h' : '_' ∉ base'.toList) {k k' : Nat}
    (heq : numberedName base k = numberedName base' k') : base = base' ∧ k = k' := by
  have hlist := congrArg String.toList heq
  by_cases hk : k = 0 <;> by_cases hk' : k' = 0
  · subst hk hk'
    exact ⟨heq, rfl⟩
  · subst hk
    rw [toList_numberedName base' hk', numberedName, if_pos rfl] at hlist
    rw [hlist] at h
    simp at h
  · subst hk'
    rw [toList_numberedName base hk, numberedName, if_pos rfl] at hlist
    rw [← hlist] at h'
    simp at h'
  · rw [toList_numberedName base hk, toList_numberedName base' hk',
      List.append_cons_inj_of_notMem h (underscore_not_mem_repr k)] at hlist
    obtain ⟨hbase, -, hnumber⟩ := hlist
    rw [String.toList_inj, Nat.toString_eq_repr, Nat.toString_eq_repr, Nat.repr_inj] at hnumber
    exact ⟨String.toList_inj.1 hbase, hnumber⟩

/-- Debug names are without an underscore, no two slots share one, and none looks like a made up name. -/
structure Proto.NamesApart (p : Proto) : Prop where
  plain : ∀ n ∈ p.debugNames, '_' ∉ n.name.toList
  slots : ∀ m ∈ p.debugNames, ∀ n ∈ p.debugNames, m.name = n.name → m.slot = n.slot
  fresh : ∀ n ∈ p.debugNames, ∀ x : Slot, n.name ≠ "slot" ++ toString x ∧ n.name ≠ "arg" ++ toString x

namespace Definitions

variable {ds : Definitions} {p : Proto} {c : Partition} {d e : Nat} {x y : Slot}

def stem (ds : Definitions) (d : Nat) : String := if ds.isParameter d then "arg" else "slot"

def baseName (ds : Definitions) (p : Proto) (d : Nat) (x : Slot) : String :=
  (ds.nameOfRoot p d x).getD (ds.stem d ++ toString x)

theorem name_localOfRoot (d : Nat) (x : Slot) (k : Nat) : (ds.localOfRoot p d x k).name =
    numberedName (ds.baseName p d x) (if ds.isParameter d then 0 else k) := by
  unfold localOfRoot baseName stem numberedName
  split <;> rfl

theorem exists_of_nameOfRoot {name : String} (h : ds.nameOfRoot p d x = some name) :
    ∃ n ∈ p.debugNames, n.slot = x ∧ n.name = name := by
  simp only [nameOfRoot, Option.map_eq_some_iff, Option.bind_eq_some_iff] at h
  obtain ⟨n, ⟨block, -, hn⟩, rfl⟩ := h
  have hslot := List.find?_some hn
  simp only [Bool.and_eq_true, decide_eq_true_eq] at hslot
  exact ⟨n, List.mem_of_find?_eq_some hn, hslot.1, rfl⟩

theorem stem_cases (ds : Definitions) (d : Nat) : ds.stem d = "arg" ∨ ds.stem d = "slot" := by
  unfold stem
  split
  · exact .inl rfl
  · exact .inr rfl

theorem eq_of_stem_append (heq : ds.stem d ++ toString x = ds.stem e ++ toString y) : x = y := by
  have hlist := congrArg String.toList heq
  rw [Nat.toString_eq_repr, Nat.toString_eq_repr] at heq
  rcases ds.stem_cases d with hd | hd <;> rcases ds.stem_cases e with he | he <;> rw [hd, he] at heq hlist
  · exact Nat.repr_inj.1 ((String.append_right_inj _).1 heq)
  · simp at hlist
  · simp at hlist
  · exact Nat.repr_inj.1 ((String.append_right_inj _).1 heq)

section Apart

variable (h : p.NamesApart)
include h

theorem underscore_not_mem_baseName (d : Nat) (x : Slot) : '_' ∉ (ds.baseName p d x).toList := by
  unfold baseName
  cases hname : ds.nameOfRoot p d x with
  | some name =>
    obtain ⟨n, hn, -, rfl⟩ := exists_of_nameOfRoot hname
    exact h.plain n hn
  | none =>
    rw [Option.getD_none, String.toList_append, List.mem_append, not_or]
    refine ⟨?_, underscore_not_mem_repr x⟩
    rcases ds.stem_cases d with hs | hs <;> rw [hs] <;> decide

theorem eq_of_baseName_eq (heq : ds.baseName p d x = ds.baseName p e y) : x = y := by
  have hfresh {name : String} {d e : Nat} {x y : Slot} (hname : ds.nameOfRoot p d x = some name) :
      name ≠ ds.stem e ++ toString y := by
    obtain ⟨n, hn, -, rfl⟩ := exists_of_nameOfRoot hname
    rcases ds.stem_cases e with hs | hs <;> rw [hs]
    · exact (h.fresh n hn y).2
    · exact (h.fresh n hn y).1
  unfold baseName at heq
  cases hx : ds.nameOfRoot p d x with
  | some name =>
    cases hy : ds.nameOfRoot p e y with
    | some name' =>
      obtain ⟨m, hm, rfl, rfl⟩ := exists_of_nameOfRoot hx
      obtain ⟨n, hn, rfl, rfl⟩ := exists_of_nameOfRoot hy
      rw [hx, hy] at heq
      exact h.slots m hm n hn heq
    | none =>
      rw [hx, hy] at heq
      exact absurd heq (hfresh hx)
  | none =>
    cases hy : ds.nameOfRoot p e y with
    | some name =>
      rw [hx, hy] at heq
      exact absurd heq.symm (hfresh hy)
    | none =>
      rw [hx, hy] at heq
      exact eq_of_stem_append heq

end Apart

def starts (ds : Definitions) (c : Partition) : List (Nat × Slot) :=
  (ds.roots c).filterMap fun d => (ds.slot? d).map (d, ·)

theorem pairwise_starts : (ds.starts c).Pairwise fun a b => a.1 < b.1 := by
  have hroots : (ds.roots c).Pairwise (· < ·) := List.pairwise_lt_range.filter _
  rw [starts, List.pairwise_filterMap]
  refine hroots.imp ?_
  intro d e hde a ha b hb
  obtain ⟨x, -, rfl⟩ := Option.map_eq_some_iff.1 ha
  obtain ⟨y, -, rfl⟩ := Option.map_eq_some_iff.1 hb
  exact hde

theorem slot?_of_mem_starts (h : (d, x) ∈ ds.starts c) : ds.slot? d = some x := by
  obtain ⟨e, -, he⟩ := List.mem_filterMap.1 h
  obtain ⟨y, hy, heq⟩ := Option.map_eq_some_iff.1 he
  cases heq
  exact hy

def suffixAt (ds : Definitions) (c : Partition) (i d : Nat) (x : Slot) : Nat :=
  if ds.isParameter d then 0 else ((ds.starts c).take i).countP (·.2 = x)

theorem names_locals : (ds.locals p c).entries.map (·.name) = (ds.starts c).zipIdx.map fun ((d, x), i) =>
    numberedName (ds.baseName p d x) (ds.suffixAt c i d x) := by
  simp only [locals, List.map_map]
  apply List.map_congr_left
  rintro ⟨⟨d, x⟩, i⟩ -
  exact name_localOfRoot d x _

theorem countP_take_lt {α : Type} {f : α → Bool} {l : List α} {a : α} {i j : Nat} (hij : i < j)
    (hi : l[i]? = some a) (ha : f a = true) : (l.take i).countP f < (l.take j).countP f := by
  have hnext : l.take (i + 1) = l.take i ++ [a] := by
    rw [List.take_add_one, hi]
    rfl
  have hle : (l.take (i + 1)).countP f ≤ (l.take j).countP f :=
    ((List.take_prefix_take_left (Nat.succ_le_of_lt hij)).sublist).countP_le
  rw [hnext, List.countP_append, List.countP_singleton, if_pos ha] at hle
  omega

theorem suffixAt_lt {i j : Nat} (hij : i < j) (hd : ((of p (.of p)).starts c)[i]? = some (d, x))
    (he : ((of p (.of p)).starts c)[j]? = some (e, x)) :
    (of p (.of p)).suffixAt c i d x < (of p (.of p)).suffixAt c j e x := by
  obtain ⟨hi, hdi⟩ := List.getElem?_eq_some_iff.1 hd
  obtain ⟨hj, hej⟩ := List.getElem?_eq_some_iff.1 he
  have hde : d < e := by
    have hpairwise : ((of p (.of p)).starts c).Pairwise fun a b => a.1 < b.1 := pairwise_starts
    have hlt := List.pairwise_iff_getElem.1 hpairwise i j hi hj hij
    rwa [hdi, hej] at hlt
  have hdx := slot?_of_mem_starts (List.mem_of_getElem? hd)
  have hex := slot?_of_mem_starts (List.mem_of_getElem? he)
  have hlater : (of p (.of p)).isParameter e = false := by
    rw [Bool.eq_false_iff, ne_eq, isParameter_iff]
    intro hparameter
    rw [slot?_parameter hparameter] at hex
    rw [slot?_parameter (Nat.lt_trans hde hparameter), ← hex] at hdx
    exact Nat.ne_of_lt hde (Option.some.inj hdx)
  have hcount : (((of p (.of p)).starts c).take i).countP (·.2 = x) <
      (((of p (.of p)).starts c).take j).countP (·.2 = x) := countP_take_lt hij hd (by simp)
  unfold suffixAt
  rw [hlater]
  split <;> simp only [Bool.false_eq_true, if_false] <;> omega

theorem nodup_names (h : p.NamesApart) (c : Partition) :
    (((of p (.of p)).locals p c).entries.map (·.name)).Nodup := by
  rw [names_locals, List.Nodup, List.pairwise_map, List.pairwise_iff_getElem]
  intro i j hi hj hij heq
  simp only [List.getElem_zipIdx, Nat.zero_add] at heq
  rw [List.length_zipIdx] at hi hj
  obtain ⟨⟨d, x⟩, hd⟩ : ∃ a, ((of p (.of p)).starts c)[i]? = some a := ⟨_, List.getElem?_eq_getElem hi⟩
  obtain ⟨⟨e, y⟩, he⟩ : ∃ a, ((of p (.of p)).starts c)[j]? = some a := ⟨_, List.getElem?_eq_getElem hj⟩
  rw [(List.getElem?_eq_some_iff.1 hd).2, (List.getElem?_eq_some_iff.1 he).2] at heq
  obtain ⟨hbase, hsuffix⟩ :=
    numberedName_inj (underscore_not_mem_baseName h d x) (underscore_not_mem_baseName h e y) heq
  obtain rfl := eq_of_baseName_eq h hbase
  exact Nat.ne_of_lt (suffixAt_lt hij hd he) hsuffix

end Definitions

namespace Proto

variable {p q : Proto} {t : Locals} {rounds : Nat}

/-- The variables have distinct names, if the debug names of the function keep apart by themselves. -/
theorem resolve_nodup_names (h : p.NamesApart) (hr : p.resolve rounds = .ok (q, t)) :
    (t.entries.map (·.name)).Nodup := by
  obtain ⟨l, r, -, -, -, rfl⟩ := resolve_eq_ok hr
  exact Definitions.nodup_names h _

theorem resolve_nodup_names_of_nil (h : p.debugNames = []) (hr : p.resolve rounds = .ok (q, t)) :
    (t.entries.map (·.name)).Nodup :=
  resolve_nodup_names (by constructor <;> simp [h]) hr

/-! One name for two slots gives two variables of this name. -/

example :
    let p : Proto :=
      { id := 0, debugNames := [⟨0, "x", 0, 9⟩, ⟨1, "x", 0, 9⟩]
        blocks := [⟨0, 0, 0, [.store (.slot 0) (.global "a"), .store (.slot 1) (.global "b"),
          .call (.global "f") [.slot 0, .slot 1] 0], .leave⟩] }
    (p.resolve 3).toOption.map (·.2.entries.map (·.name)) = some ["x", "x"] := by
  cbv

/-! A name can look like one that got a number. -/

example :
    let p : Proto :=
      { id := 0, debugNames := [⟨1, "slot0_1", 0, 9⟩]
        blocks := [⟨0, 0, 0, [.store (.slot 0) (.global "a"), .call (.global "f") [.slot 0] 0,
          .store (.slot 0) (.global "b"), .store (.slot 1) (.global "c"),
          .call (.global "f") [.slot 0, .slot 1] 0], .leave⟩] }
    (p.resolve 3).toOption.map (·.2.entries.map (·.name)) = some ["slot0", "slot0_1", "slot0_1"] := by
  cbv

end Proto

end LuaLift
