import LuaLift.Data.NatSet
import LuaLift.Proto.Basic
import Mathlib.Data.Finset.Card
import Mathlib.Logic.Function.Iterate

/-!
Set equations over the blocks of a graph, and sweeps that solve them. A sweep carries every number at least
one block further, so that as many sweeps as there are blocks find the least solution, one more brings what
is gathered up to date, and all further ones change nothing.
-/

namespace LuaLift

theorem NatSet.mem_foldl_union {α : Type} (g : α → NatSet) {l : List α} {s : NatSet} {e : Nat} :
    e ∈ l.foldl (fun s a => s ∪ g a) s ↔ e ∈ s ∨ ∃ a ∈ l, e ∈ g a := by
  induction l generalizing s with
  | nil => simp
  | cons a l ih =>
    rw [List.foldl_cons, ih, NatSet.mem_union]
    simp [or_assoc]

section Settling

variable {α : Type} [DecidableEq α]

def settleBy (step : α → α) : Nat → α → Option α
  | 0, _ => none
  | n + 1, x => if step x = x then some (step x) else settleBy step n (step x)

variable {step : α → α} {x y z : α}

theorem settleBy_eq_some {n : Nat} (h : settleBy step n x = some y) : step y = y ∧ ∃ j, y = step^[j] x := by
  induction n generalizing x with
  | zero => cases h
  | succ n ih =>
    unfold settleBy at h
    split at h
    · next hfixed =>
      cases h
      exact ⟨congrArg step hfixed, 1, rfl⟩
    · obtain ⟨hfixed, j, hj⟩ := ih h
      exact ⟨hfixed, j + 1, hj⟩

theorem settleBy_isSome {j n : Nat} (hj : j < n) (h : step (step^[j] x) = step^[j] x) :
    ∃ y, settleBy step n x = some y := by
  induction n generalizing x j with
  | zero => omega
  | succ n ih =>
    unfold settleBy
    split
    · exact ⟨_, rfl⟩
    · next hmoves =>
      cases j with
      | zero => exact absurd h hmoves
      | succ j => exact ih (Nat.lt_of_succ_lt_succ hj) h

variable {m : Nat} (hlimit : ∀ j, m < j → step^[j] x = z)
include hlimit

theorem eq_limit_of_settleBy {n : Nat} (h : settleBy step n x = some y) : y = z := by
  obtain ⟨hfixed, j, rfl⟩ := settleBy_eq_some h
  rw [← hlimit (m + 1 + j) (by omega), Function.iterate_add_apply, Function.iterate_fixed hfixed]

theorem settleBy_of_limit {n : Nat} (hn : m + 1 < n) : settleBy step n x = some z := by
  have hfixed : step (step^[m + 1] x) = step^[m + 1] x := by
    rw [← Function.iterate_succ_apply' step, hlimit _ (by omega), hlimit _ (by omega)]
  obtain ⟨y, hy⟩ := settleBy_isSome hn hfixed
  rw [hy, eq_limit_of_settleBy hlimit hy]

end Settling

/-- What the sources of a block let through is gathered, and goes through the block in its turn. Whether a
number comes out hangs on this number alone. -/
structure FlowEquations where
  order : List BlockId
  sources : BlockId → List BlockId
  start : BlockId → NatSet
  through : BlockId → NatSet → NatSet
  closed : ∀ b ∈ order, ∀ c ∈ sources b, c ∈ order
  pointwise : ∀ {b : BlockId} {s t : NatSet} {d : Nat}, (d ∈ s → d ∈ t) → d ∈ through b s → d ∈ through b t

namespace FlowEquations

variable (E : FlowEquations)

def gather (passed : BlockId → NatSet) (b : BlockId) : NatSet :=
  (E.sources b).foldl (fun s c => s ∪ passed c) (E.start b)

theorem mem_gather {passed : BlockId → NatSet} {b : BlockId} {d : Nat} :
    d ∈ E.gather passed b ↔ d ∈ E.start b ∨ ∃ c ∈ E.sources b, d ∈ passed c :=
  NatSet.mem_foldl_union passed

theorem gather_mono {passed passed' : BlockId → NatSet} {b : BlockId} {d : Nat}
    (h : ∀ c ∈ E.sources b, d ∈ passed c → d ∈ passed' c) (hd : d ∈ E.gather passed b) :
    d ∈ E.gather passed' b := by
  rw [mem_gather] at hd ⊢
  exact hd.imp_right fun ⟨c, hc, hdc⟩ => ⟨c, hc, h c hc hdc⟩

theorem gather_congr {passed passed' : BlockId → NatSet} {b : BlockId}
    (h : ∀ c ∈ E.sources b, passed c = passed' c) : E.gather passed b = E.gather passed' b :=
  NatSet.ext fun _ => ⟨E.gather_mono fun c hc => h c hc ▸ id, E.gather_mono fun c hc => h c hc ▸ id⟩

def after (E : FlowEquations) : Nat → BlockId → NatSet
  | 0, _ => ∅
  | j + 1, b => E.through b (E.gather (E.after j) b)

def solution : BlockId → NatSet := E.after E.order.length

variable {b : BlockId} {d : Nat}

theorem after_succ {j : Nat} (h : d ∈ E.after j b) : d ∈ E.after (j + 1) b := by
  induction j generalizing b with
  | zero => exact absurd h NatSet.not_mem_empty
  | succ j ih =>
    apply E.pointwise _ h
    exact E.gather_mono fun c _ => ih

theorem after_mono {i j : Nat} (hij : i ≤ j) (h : d ∈ E.after i b) : d ∈ E.after j b := by
  induction hij with
  | refl => exact h
  | step _ ih => exact E.after_succ ih

theorem after_of_idle {j : Nat} (hidle : ∀ b ∈ E.order, d ∈ E.after (j + 1) b → d ∈ E.after j b) (i : Nat) :
    ∀ b ∈ E.order, d ∈ E.after i b → d ∈ E.after j b := by
  induction i with
  | zero => exact fun b _ h => absurd h NatSet.not_mem_empty
  | succ i ih =>
    intro b hb h
    apply hidle b hb
    apply E.pointwise _ h
    exact E.gather_mono fun c hc => ih c (E.closed b hb c hc)

def holders (d j : Nat) : Finset BlockId := {b ∈ E.order.toFinset | d ∈ E.after j b}

theorem mem_holders {j : Nat} : b ∈ E.holders d j ↔ b ∈ E.order ∧ d ∈ E.after j b := by
  simp [holders]

theorem card_holders_le (d j : Nat) : (E.holders d j).card ≤ E.order.length :=
  (Finset.card_filter_le _ _).trans (List.toFinset_card_le _)

theorem card_holders_lt {j : Nat} (hb : b ∈ E.order) (hnew : d ∈ E.after (j + 1) b) (hold : d ∉ E.after j b) :
    (E.holders d j).card < (E.holders d (j + 1)).card := by
  apply Finset.card_lt_card
  constructor
  · intro c hc
    rw [mem_holders] at hc ⊢
    exact ⟨hc.1, E.after_succ hc.2⟩
  · intro hsub
    have := hsub (E.mem_holders.2 ⟨hb, hnew⟩)
    exact hold (E.mem_holders.1 this).2

theorem exists_idle (d : Nat) :
    ∃ j ≤ E.order.length, ∀ b ∈ E.order, d ∈ E.after (j + 1) b → d ∈ E.after j b := by
  by_contra hnone
  push Not at hnone
  have hgrows (j : Nat) (hj : j ≤ E.order.length + 1) : j ≤ (E.holders d j).card := by
    induction j with
    | zero => exact Nat.zero_le _
    | succ j ih =>
      obtain ⟨b, hb, hnew, hold⟩ := hnone j (by omega)
      have hlt := E.card_holders_lt hb hnew hold
      have := ih (by omega)
      omega
  have hle := E.card_holders_le d (E.order.length + 1)
  have := hgrows (E.order.length + 1) le_rfl
  omega

theorem mem_solution_of_after {j : Nat} (hb : b ∈ E.order) (h : d ∈ E.after j b) : d ∈ E.solution b := by
  obtain ⟨i, hi, hidle⟩ := E.exists_idle d
  exact E.after_mono hi (E.after_of_idle hidle j b hb h)

theorem solution_eq (hb : b ∈ E.order) : E.solution b = E.through b (E.gather E.solution b) :=
  NatSet.ext fun _ => ⟨E.after_succ, fun h => E.mem_solution_of_after (j := E.order.length + 1) hb h⟩

theorem solution_congr {E' : FlowEquations} (horder : E'.order = E.order) (hsources : ∀ b, E'.sources b = E.sources b)
    (hstart : ∀ b, E'.start b = E.start b) (hthrough : ∀ b ∈ E.order, ∀ s,
      (∀ d ∈ s, d ∈ E.gather E.solution b) → E'.through b s = E.through b s) (hb : b ∈ E.order) :
    E'.solution b = E.solution b := by
  have hgather (passed : BlockId → NatSet) (b : BlockId) : E'.gather passed b = E.gather passed b := by
    rw [gather, gather, hsources, hstart]
  have hupper (j : Nat) : ∀ b ∈ E.order, ∀ d ∈ E'.after j b, d ∈ E.solution b := by
    induction j with
    | zero => exact fun b _ d hd => absurd hd NatSet.not_mem_empty
    | succ j ih =>
      intro b hb d hd
      have hbelow : ∀ d ∈ E.gather (E'.after j) b, d ∈ E.gather E.solution b :=
        fun d => E.gather_mono fun c hc => ih c (E.closed b hb c hc) d
      rw [after, hgather, hthrough b hb _ hbelow] at hd
      rw [E.solution_eq hb]
      exact E.pointwise (hbelow d) hd
  have hlower (j : Nat) : ∀ b ∈ E.order, ∀ d ∈ E.after j b, d ∈ E'.solution b := by
    induction j with
    | zero => exact fun b _ d hd => absurd hd NatSet.not_mem_empty
    | succ j ih =>
      intro b hb d hd
      have hbelow : ∀ d ∈ E.gather E'.solution b, d ∈ E.gather E.solution b :=
        fun d => E.gather_mono fun c hc => hupper _ c (E.closed b hb c hc) d
      rw [E'.solution_eq (horder ▸ hb), hgather, hthrough b hb _ hbelow]
      exact E.pointwise (E.gather_mono fun c hc => ih c (E.closed b hb c hc) d) hd
  exact NatSet.ext fun d => ⟨hupper _ b hb d, hlower _ b hb d⟩

/-- Updates bring one block up to date, whose row is made from what is gathered, and leave the rows of the
others alone. -/
structure SolvedBy {α β : Type} (sized : α → Prop) (row : α → BlockId → β) (passed : β → NatSet)
    (make : BlockId → NatSet → β) (update : α → BlockId → α) : Prop where
  sized_update : ∀ {x : α}, sized x → ∀ b, sized (update x b)
  row_self : ∀ {x : α}, sized x → ∀ b ∈ E.order,
    row (update x b) b = make b (E.gather (fun c => passed (row x c)) b)
  row_other : ∀ (x : α) {b c : BlockId}, c ≠ b → row (update x b) c = row x c
  passed_make : ∀ b s, passed (make b s) = E.through b s
  ext : ∀ {x y : α}, sized x → sized y → (∀ b, row x b = row y b) → x = y

structure Between (passed : BlockId → NatSet) (j : Nat) : Prop where
  lower : ∀ b ∈ E.order, ∀ d ∈ E.after j b, d ∈ passed b
  upper : ∀ b ∈ E.order, ∀ d ∈ passed b, d ∈ E.solution b

variable {E} in
theorem Between.passed_eq {passed : BlockId → NatSet} {j : Nat} (h : E.Between passed j)
    (hj : E.order.length ≤ j) (hb : b ∈ E.order) : passed b = E.solution b :=
  NatSet.ext fun d => ⟨h.upper b hb d, fun hd => h.lower b hb d (E.after_mono hj hd)⟩

structure Solves (gathered passed : BlockId → NatSet) : Prop where
  gathered : ∀ b ∈ E.order, gathered b = E.gather E.solution b
  passed : ∀ b ∈ E.order, passed b = E.solution b

variable {E} in
theorem solves_of_rows {gathered passed : BlockId → NatSet} (h : ∀ b ∈ E.order,
    (gathered b, passed b) = (E.gather E.solution b, E.through b (E.gather E.solution b))) :
    E.Solves gathered passed where
  gathered := fun b hb => congrArg Prod.fst (h b hb)
  passed := fun b hb => (congrArg Prod.snd (h b hb)).trans (E.solution_eq hb).symm

namespace SolvedBy

variable {E} {α β : Type} {sized : α → Prop} {row : α → BlockId → β} {passed : β → NatSet}
  {make : BlockId → NatSet → β} {update : α → BlockId → α} (h : E.SolvedBy sized row passed make update)
include h

theorem sized_foldl (l : List BlockId) {x : α} (hx : sized x) : sized (l.foldl update x) :=
  List.foldlRecOn (motive := sized) l _ hx fun _ hx b _ => h.sized_update hx b

theorem row_foldl_other (l : List BlockId) (x : α) (hb : b ∉ l) : row (l.foldl update x) b = row x b := by
  induction l generalizing x with
  | nil => rfl
  | cons a l ih =>
    simp only [List.mem_cons, not_or] at hb
    exact (ih (update x a) hb.2).trans (h.row_other x hb.1)

theorem passed_self {x : α} (hx : sized x) (hb : b ∈ E.order) :
    passed (row (update x b) b) = E.through b (E.gather (fun c => passed (row x c)) b) := by
  rw [h.row_self hx b hb, h.passed_make]

theorem update_lower {j : Nat} {x : α} (hx : sized x) (hj : E.Between (fun c => passed (row x c)) j)
    (hb : b ∈ E.order) (hd : d ∈ E.after (j + 1) b) : d ∈ passed (row (update x b) b) := by
  rw [h.passed_self hx hb]
  apply E.pointwise _ hd
  exact E.gather_mono fun c hc => hj.lower c (E.closed b hb c hc) d

theorem between_update {j : Nat} {x : α} (hx : sized x) (hj : E.Between (fun c => passed (row x c)) j)
    (hb : b ∈ E.order) : E.Between (fun c => passed (row (update x b) c)) j := by
  constructor
  · intro c hc d hd
    by_cases hcb : c = b
    · subst hcb
      exact h.update_lower hx hj hb (E.after_succ hd)
    · rw [h.row_other x hcb]
      exact hj.lower c hc d hd
  · intro c hc d hd
    by_cases hcb : c = b
    · subst hcb
      rw [h.passed_self hx hc] at hd
      rw [E.solution_eq hc]
      apply E.pointwise _ hd
      exact E.gather_mono fun a ha => hj.upper a (E.closed c hc a ha) d
    · rw [h.row_other x hcb] at hd
      exact hj.upper c hc d hd

theorem between_foldl {j : Nat} {l : List BlockId} (hl : ∀ b ∈ l, b ∈ E.order) {x : α} (hx : sized x)
    (hj : E.Between (fun c => passed (row x c)) j) :
    E.Between (fun c => passed (row (l.foldl update x) c)) j ∧
      ∀ b ∈ l, ∀ d ∈ E.after (j + 1) b, d ∈ passed (row (l.foldl update x) b) := by
  induction l generalizing x with
  | nil => exact ⟨hj, by simp⟩
  | cons a l ih =>
    have ha := hl a (.head _)
    obtain ⟨hbetween, hreached⟩ :=
      ih (fun b hb => hl b (.tail _ hb)) (h.sized_update hx a) (h.between_update hx hj ha)
    refine ⟨hbetween, fun b hb d hd => ?_⟩
    by_cases hbl : b ∈ l
    · exact hreached b hbl d hd
    · obtain rfl : b = a := (List.mem_cons.1 hb).resolve_right hbl
      rw [List.foldl_cons, h.row_foldl_other l _ hbl]
      exact h.update_lower hx hj ha hd

theorem between_sweep {j : Nat} {x : α} (hx : sized x) (hj : E.Between (fun c => passed (row x c)) j) :
    E.Between (fun c => passed (row (E.order.foldl update x) c)) (j + 1) :=
  ⟨(h.between_foldl (fun _ => id) hx hj).2, (h.between_foldl (fun _ => id) hx hj).1.upper⟩

theorem between_iterate {x : α} (hx : sized x) (hempty : ∀ b, passed (row x b) = ∅) (j : Nat) :
    sized ((fun x => E.order.foldl update x)^[j] x) ∧
      E.Between (fun c => passed (row ((fun x => E.order.foldl update x)^[j] x) c)) j := by
  induction j with
  | zero =>
    refine ⟨hx, fun b _ d hd => absurd hd NatSet.not_mem_empty, fun b _ d hd => ?_⟩
    rw [Function.iterate_zero_apply, hempty b] at hd
    exact absurd hd NatSet.not_mem_empty
  | succ j ih =>
    rw [Function.iterate_succ_apply']
    exact ⟨h.sized_foldl _ ih.1, h.between_sweep ih.1 ih.2⟩

theorem row_foldl {l : List BlockId} (hl : ∀ b ∈ l, b ∈ E.order) {x : α} (hx : sized x)
    (hj : E.Between (fun c => passed (row x c)) E.order.length) (hb : b ∈ l) :
    row (l.foldl update x) b = make b (E.gather E.solution b) := by
  induction l generalizing x with
  | nil => cases hb
  | cons a l ih =>
    have ha := hl a (.head _)
    by_cases hbl : b ∈ l
    · exact ih (fun b hb => hl b (.tail _ hb)) (h.sized_update hx a) (h.between_update hx hj ha) hbl
    · obtain rfl : b = a := (List.mem_cons.1 hb).resolve_right hbl
      rw [List.foldl_cons, h.row_foldl_other l _ hbl, h.row_self hx b ha]
      congr 1
      apply E.gather_congr
      intro c hc
      exact hj.passed_eq le_rfl (E.closed b ha c hc)

theorem row_iterate_other (x : α) (hb : b ∉ E.order) (j : Nat) :
    row ((fun x => E.order.foldl update x)^[j] x) b = row x b := by
  induction j with
  | zero => rfl
  | succ j ih =>
    rw [Function.iterate_succ_apply', h.row_foldl_other _ _ hb]
    exact ih

theorem row_iterate {x : α} (hx : sized x) (hempty : ∀ b, passed (row x b) = ∅) {j : Nat}
    (hj : E.order.length < j) (hb : b ∈ E.order) :
    row ((fun x => E.order.foldl update x)^[j] x) b = make b (E.gather E.solution b) := by
  obtain ⟨j, rfl⟩ := Nat.exists_eq_add_one_of_ne_zero (Nat.ne_zero_of_lt hj)
  obtain ⟨hsized, hbetween⟩ := h.between_iterate hx hempty j
  rw [Function.iterate_succ_apply']
  apply h.row_foldl (fun _ => id) hsized _ hb
  exact ⟨fun c hc d hd => hbetween.lower c hc d (E.after_mono (by omega) hd), hbetween.upper⟩

/-- Sweeps settle within two rounds more than there are blocks, and wherever they settle they have found
the one solution. -/
theorem exists_settled [DecidableEq α] {x : α} (hx : sized x) (hempty : ∀ b, passed (row x b) = ∅) :
    ∃ z, (∀ b ∈ E.order, row z b = make b (E.gather E.solution b)) ∧
      (∀ n, E.order.length + 2 ≤ n → settleBy (fun x => E.order.foldl update x) n x = some z) ∧
      ∀ n y, settleBy (fun x => E.order.foldl update x) n x = some y → y = z := by
  have hrow {b : BlockId} (hb : b ∈ E.order) {j : Nat} (hj : E.order.length < j) := h.row_iterate hx hempty hj hb
  have hlimit (j : Nat) (hj : E.order.length < j) : (fun x => E.order.foldl update x)^[j] x =
      (fun x => E.order.foldl update x)^[E.order.length + 1] x := by
    apply h.ext (h.between_iterate hx hempty j).1 (h.between_iterate hx hempty _).1
    intro b
    by_cases hb : b ∈ E.order
    · rw [hrow hb hj, hrow hb (Nat.lt_succ_self _)]
    · rw [h.row_iterate_other x hb, h.row_iterate_other x hb]
  exact ⟨_, fun b hb => hrow hb (Nat.lt_succ_self _), fun n hn => settleBy_of_limit hlimit hn,
    fun n y hy => eq_limit_of_settleBy hlimit hy⟩

end SolvedBy

end FlowEquations

section Rows

variable {rows rows' : List NatSet}

theorem getD_set_self {b : BlockId} (hb : b < rows.length) (s : NatSet) : (rows.set b s)[b]?.getD ∅ = s := by
  simp [hb]

theorem getD_set_other {b c : BlockId} (hc : c ≠ b) (s : NatSet) :
    (rows.set b s)[c]?.getD ∅ = rows[c]?.getD ∅ := by
  rw [List.getElem?_set_ne (Ne.symm hc)]

theorem getD_replicate (n : Nat) (b : BlockId) : (List.replicate n (∅ : NatSet))[b]?.getD ∅ = ∅ := by
  rw [List.getElem?_replicate]
  split <;> rfl

theorem rows_ext (hlength : rows.length = rows'.length) (h : ∀ b : BlockId, rows[b]?.getD ∅ = rows'[b]?.getD ∅) :
    rows = rows' := by
  apply List.ext_getElem hlength
  intro b hb hb'
  simpa [hb, hb'] using h b

end Rows

end LuaLift
