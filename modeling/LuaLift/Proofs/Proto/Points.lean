import LuaLift.Proofs.Proto.Shape
import LuaLift.Slots.LiveRange

namespace LuaLift.Proto

open Relation

variable {p : Proto} {kind : CellKind} {k : Nat} {b c : BlockId} {i : Nat}

/-- From a statement to the point behind it, and from the end of a block to the targets of its jump. -/
inductive Next (p : Proto) : Point → Point → Prop where
  | stmt {b : BlockId} {i : Nat} (hi : i < (p.body b).length) : Next p (b, i) (b, i + 1)
  | jump {b c : BlockId} {i : Nat} (hi : i = (p.body b).length) (hc : c ∈ (p.jump b).targets) :
    Next p (b, i) (c, 0)

inductive Reads (p : Proto) (kind : CellKind) (k : Nat) : Point → Prop where
  | stmt {b : BlockId} {i : Nat} {s : Stmt} (hs : (p.body b)[i]? = some s) (hk : k ∈ s.reads kind) :
    Reads p kind k (b, i)
  | jump {b : BlockId} {i : Nat} (hi : i = (p.body b).length) (hk : k ∈ (p.jump b).reads kind) :
    Reads p kind k (b, i)

inductive Writes (p : Proto) (kind : CellKind) (k : Nat) : Point → Prop where
  | stmt {b : BlockId} {i : Nat} {s : Stmt} (hs : (p.body b)[i]? = some s) (hk : k ∈ s.writes kind) :
    Writes p kind k (b, i)

/-- Some path from the point reads the cell, and no point before the read writes it. -/
def LiveAt (p : Proto) (kind : CellKind) (k : Nat) (q : Point) : Prop :=
  ∃ r, ReflTransGen (fun a c => p.Next a c ∧ ¬p.Writes kind k a) q r ∧ p.Reads kind k r

def Flows (p : Proto) : Point → Point → Prop := ReflTransGen p.Next

/-- Some path from the entry to the point writes the slot before it, or the slot is a parameter. -/
def DefinedAt (p : Proto) (s : Slot) (q : Point) : Prop :=
  (s < p.parameters ∧ p.Flows (0, 0) q) ∨
    ∃ r t, p.Flows (0, 0) r ∧ p.Writes .slot s r ∧ p.Next r t ∧ p.Flows t q

theorem liveAt_of_next {q r : Point} (hnext : p.Next q r) (hw : ¬p.Writes kind k q) (h : p.LiveAt kind k r) :
    p.LiveAt kind k q := by
  obtain ⟨t, hpath, ht⟩ := h
  exact ⟨t, hpath.head ⟨hnext, hw⟩, ht⟩

theorem LiveAt.reads_or_next {q : Point} (h : p.LiveAt kind k q) :
    p.Reads kind k q ∨ ¬p.Writes kind k q ∧ ∃ r, p.Next q r ∧ p.LiveAt kind k r := by
  obtain ⟨t, hpath, ht⟩ := h
  rcases hpath.cases_head with rfl | ⟨r, ⟨hnext, hw⟩, hrest⟩
  · exact .inl ht
  · exact .inr ⟨hw, r, hnext, t, hrest, ht⟩

theorem Next.eq_of_succ {q : Point} (h : p.Next q (b, i + 1)) : q = (b, i) ∧ i < (p.body b).length := by
  cases h with
  | stmt hi => exact ⟨rfl, hi⟩

theorem flows_body {j : Nat} (hij : i ≤ j) (hj : j ≤ (p.body b).length) : p.Flows (b, i) (b, j) := by
  induction hij with
  | refl => exact .refl
  | step hij ih => exact (ih (Nat.le_of_succ_le hj)).tail (.stmt hj)

theorem Flows.stays_or_leaves {j : Nat} (h : p.Flows (b, i) (c, j)) :
    b = c ∧ i ≤ j ∨ ∃ t ∈ (p.jump b).targets, p.Flows (t, 0) (c, j) := by
  generalize hq : (b, i) = q at h
  induction h using ReflTransGen.head_induction_on generalizing b i with
  | refl =>
    cases hq
    exact .inl ⟨rfl, Nat.le_refl _⟩
  | head hnext hrest ih =>
    subst hq
    cases hnext with
    | stmt hi => exact (ih rfl).imp_left fun ⟨hb, hle⟩ => ⟨hb, Nat.le_of_succ_le hle⟩
    | jump hi ht => exact .inr ⟨_, ht, hrest⟩

section WellShaped

variable (hp : p.WellShaped)
include hp

theorem WellShaped.flows_of_reaches (h : (Flow.of p).graph.Reaches b c) : p.Flows (b, 0) (c, 0) := by
  induction h with
  | refl => exact .refl
  | @tail c d _ hd ih =>
    have hd : d ∈ (p.jump c).targets := by
      rw [← hp.successors]
      exact hd
    exact (ih.trans (flows_body (Nat.zero_le _) (Nat.le_refl _))).tail (.jump rfl hd)

theorem WellShaped.reaches_of_flows {j : Nat} (h : p.Flows (b, i) (c, j)) : (Flow.of p).graph.Reaches b c := by
  generalize hr : (c, j) = r at h
  induction h generalizing c j with
  | refl =>
    cases hr
    exact .refl
  | tail _ hnext ih =>
    subst hr
    cases hnext with
    | stmt hi => exact ih rfl
    | jump hi ht =>
      apply (ih rfl).tail
      rw [← hp.successors] at ht
      exact ht

theorem WellShaped.flows_entry (hb : (Flow.of p).isReachable b = true) (hi : i ≤ (p.body b).length) :
    p.Flows (0, 0) (b, i) :=
  (hp.flows_of_reaches (hp.isReachable_iff.1 hb)).trans (flows_body (Nat.zero_le i) hi)

theorem WellShaped.isReachable_next {q r : Point} (hq : (Flow.of p).isReachable q.1 = true) (h : p.Next q r) :
    (Flow.of p).isReachable r.1 = true := by
  cases h with
  | stmt => exact hq
  | jump hi hc => exact hp.isReachable_target hq hc

theorem WellShaped.isReachable_of_flows (h : p.Flows (0, 0) (b, i)) : (Flow.of p).isReachable b = true :=
  hp.isReachable_iff.2 (hp.reaches_of_flows h)

end WellShaped

section Defined

variable {s : Slot} {q r : Point}

theorem DefinedAt.trans (h : p.DefinedAt s q) (hr : p.Flows q r) : p.DefinedAt s r := by
  rcases h with ⟨hs, hq⟩ | ⟨a, t, ha, hw, hat, hq⟩
  · exact .inl ⟨hs, hq.trans hr⟩
  · exact .inr ⟨a, t, ha, hw, hat, hq.trans hr⟩

theorem definedAt_of_writes (hq : p.Flows (0, 0) q) (hw : p.Writes .slot s q) (hr : p.Next q r) :
    p.DefinedAt s r :=
  .inr ⟨q, r, hq, hw, hr, .refl⟩

theorem definedAt_succ (hq : p.Flows (0, 0) (b, i)) (hi : i < (p.body b).length) :
    p.DefinedAt s (b, i + 1) ↔ p.DefinedAt s (b, i) ∨ p.Writes .slot s (b, i) := by
  constructor
  · rintro (⟨hs, -⟩ | ⟨a, t, ha, hw, hat, ht⟩)
    · exact .inl (.inl ⟨hs, hq⟩)
    · rcases ht.cases_tail with heq | ⟨u, hu, hnext⟩
      · rw [← heq] at hat
        obtain ⟨rfl, -⟩ := hat.eq_of_succ
        exact .inr hw
      · obtain ⟨rfl, -⟩ := hnext.eq_of_succ
        exact .inl (.inr ⟨a, t, ha, hw, hat, hu⟩)
  · rintro (h | h)
    · exact h.trans (.single (.stmt hi))
    · exact definedAt_of_writes hq h (.stmt hi)

theorem WellShaped.writes_after (hp : p.WellShaped) (hb : (Flow.of p).isReachable b = true)
    (hi : i ≤ (p.body b).length) {t : Stmt} (ht : t ∈ p.body 0) (hs : s ∈ t.writtenSlots)
    (hn : ¬p.DefinedAt s (b, i)) : ∃ n, (p.body b)[i + n]? = some t := by
  obtain ⟨j, hj⟩ := List.mem_iff_getElem?.1 ht
  have hlt := (List.getElem?_eq_some_iff.1 hj).1
  have hdefined : p.DefinedAt s (0, j + 1) :=
    definedAt_of_writes (flows_body (Nat.zero_le j) (Nat.le_of_lt hlt)) (.stmt hj hs) (.stmt hlt)
  rcases (hp.flows_entry hb hi).stays_or_leaves with ⟨rfl, -⟩ | ⟨c, hc, hpath⟩
  · refine ⟨j - i, ?_⟩
    have hij : i ≤ j := by
      apply Nat.le_of_not_lt
      intro hji
      exact hn (hdefined.trans (flows_body hji hi))
    rwa [Nat.add_sub_of_le hij]
  · have hleaves := (flows_body hlt (Nat.le_refl _)).tail (.jump rfl hc)
    exact absurd (hdefined.trans (hleaves.trans hpath)) hn

end Defined

end LuaLift.Proto
