import LuaLift.Proofs.Proto.Undefined

namespace LuaLift.Proto

open Relation

variable {p q : Proto} {s : Slot} {a c : Point}

theorem le_of_mem_readsFrom {b : BlockId} {i : Nat} {ss : List Stmt} {last : List Slot} {e : Point × Slot}
    (he : e ∈ readsFrom b i ss last) : i ≤ e.1.2 := by
  induction ss generalizing i with
  | nil =>
    obtain ⟨x, -, rfl⟩ := List.mem_map.1 he
    exact Nat.le_refl i
  | cons t ss ih =>
    rcases List.mem_append.1 he with he | he
    · obtain ⟨x, -, rfl⟩ := List.mem_map.1 he
      exact Nat.le_refl i
    · exact Nat.le_of_succ_le (ih he)

theorem mem_readsFrom_iff {b : BlockId} {i k : Nat} {ss : List Stmt} {last : List Slot} :
    ((b, i + k), s) ∈ readsFrom b i ss last ↔
      (∃ t, ss[k]? = some t ∧ s ∈ t.readSlots) ∨ k = ss.length ∧ s ∈ last := by
  induction ss generalizing i k with
  | nil => simp [readsFrom, and_comm]
  | cons t ss ih =>
    rw [readsFrom, List.mem_append]
    cases k with
    | zero =>
      have hno : ((b, i), s) ∉ readsFrom b (i + 1) ss last :=
        fun he => Nat.not_succ_le_self i (le_of_mem_readsFrom he)
      simp [hno]
    | succ k =>
      have hno : ((b, i + (k + 1)), s) ∉ t.readSlots.map ((b, i), ·) := by simp
      rw [or_iff_right hno, show i + (k + 1) = i + 1 + k by omega, ih]
      simp

theorem reads_iff {b : BlockId} {i : Nat} : p.Reads .slot s (b, i) ↔
    (∃ t, (p.body b)[i]? = some t ∧ s ∈ t.readSlots) ∨ i = (p.body b).length ∧ s ∈ (p.jump b).reads .slot := by
  constructor
  · rintro (⟨ht, hs⟩ | ⟨hi, hs⟩)
    · exact .inl ⟨_, ht, hs⟩
    · exact .inr ⟨hi, hs⟩
  · rintro (⟨t, ht, hs⟩ | ⟨hi, hs⟩)
    · exact .stmt ht hs
    · exact .jump hi hs

theorem mem_readsOf_iff {b : BlockId} {i : Nat} : ((b, i), s) ∈ p.readsOf b ↔ p.Reads .slot s (b, i) := by
  have hat : ((b, 0 + i), s) ∈ p.readsOf b ↔ _ := mem_readsFrom_iff
  rwa [Nat.zero_add, ← reads_iff] at hat

theorem Reads.le_length {b : BlockId} {i : Nat} (h : p.Reads .slot s (b, i)) : i ≤ (p.body b).length := by
  cases h with
  | stmt ht => exact Nat.le_of_lt (List.getElem?_eq_some_iff.1 ht).1
  | jump hi => exact Nat.le_of_eq hi

theorem WellShaped.mem_readsInOrder (hp : p.WellShaped) :
    (a, s) ∈ p.readsInOrder ↔ p.Flows (0, 0) a ∧ p.Reads .slot s a := by
  obtain ⟨b, i⟩ := a
  rw [readsInOrder, List.mem_flatMap]
  constructor
  · rintro ⟨c, hc, he⟩
    obtain ⟨rfl, -⟩ := mem_readsFrom he
    have hs := mem_readsOf_iff.1 he
    exact ⟨hp.flows_entry (Flow.mem_order.1 hc) hs.le_length, hs⟩
  · rintro ⟨hflows, hs⟩
    exact ⟨b, Flow.mem_order.2 (hp.isReachable_of_flows hflows), mem_readsOf_iff.2 hs⟩

/-- Every read that the entry leads to has a write in front of it on some path. -/
def AllDefined (p : Proto) : Prop := ∀ a s, p.Flows (0, 0) a → p.Reads .slot s a → p.DefinedAt s a

theorem violation?_eq_none_iff_allDefined : p.violation? = none ↔ p.WellShaped ∧ p.AllDefined := by
  rw [violation?_eq_none_iff]
  refine and_congr_right fun hp => ?_
  rw [undefinedSlot?_eq hp, Option.map_eq_none_iff, List.find?_eq_none]
  constructor
  · intro h a s ha hs
    simpa using h (a, s) (hp.mem_readsInOrder.2 ⟨ha, hs⟩)
  · rintro h ⟨a, s⟩ hmem
    obtain ⟨ha, hs⟩ := hp.mem_readsInOrder.1 hmem
    simpa using h a s ha hs

theorem Writes.next_eq {b : BlockId} {i : Nat} (hw : p.Writes .slot s (b, i)) (hnext : p.Next (b, i) c) :
    i < (p.body b).length ∧ c = (b, i + 1) := by
  obtain ⟨ht, -⟩ := hw
  have hi := (List.getElem?_eq_some_iff.1 ht).1
  cases hnext with
  | stmt => exact ⟨hi, rfl⟩
  | jump hend => omega

structure Carries (p q : Proto) (s : Slot) (f : Point → Point) : Prop where
  parameters : s < p.parameters → s < q.parameters
  entry : q.Flows (0, 0) (f (0, 0))
  next : ∀ {a c}, p.Flows (0, 0) a → p.Next a c → q.Flows (f a) (f c)
  writes : ∀ {a c}, p.Flows (0, 0) a → p.Writes .slot s a → p.Next a c →
    q.Writes .slot s (f a) ∧ ∃ d, q.Next (f a) d ∧ q.Flows d (f c)

namespace Carries

variable {f : Point → Point} (h : Carries p q s f)
include h

theorem flows (ha : p.Flows (0, 0) a) (hac : p.Flows a c) : q.Flows (f a) (f c) := by
  induction hac with
  | refl => exact .refl
  | tail hab hnext ih => exact ih.trans (h.next (ha.trans hab) hnext)

theorem flows_entry (ha : p.Flows (0, 0) a) : q.Flows (0, 0) (f a) := h.entry.trans (h.flows .refl ha)

theorem definedAt (ha : p.DefinedAt s a) : q.DefinedAt s (f a) := by
  rcases ha with ⟨hs, ha⟩ | ⟨b, t, hb, hw, hnext, hflows⟩
  · exact .inl ⟨h.parameters hs, h.flows_entry ha⟩
  · obtain ⟨hw', d, hd, hdt⟩ := h.writes hb hw hnext
    exact .inr ⟨f b, d, h.flows_entry hb, hw', hd, hdt.trans (h.flows (hb.tail hnext) hflows)⟩

end Carries

theorem AllDefined.carried {f g : Point → Point} (h : p.AllDefined) (hf : ∀ s, Carries p q s f)
    (hg : ∀ s, Carries q p s g) (hreads : ∀ {a s}, q.Flows (0, 0) a → q.Reads .slot s a → p.Reads .slot s (g a))
    (hback : ∀ {a s}, q.Flows (0, 0) a → q.Reads .slot s a → f (g a) = a) : q.AllDefined := by
  intro a s ha hs
  have := (hf s).definedAt (h (g a) s ((hg s).flows_entry ha) (hreads ha hs))
  rwa [hback ha hs] at this

end LuaLift.Proto
