import LuaLift.Flow.Digraph
import Mathlib.Logic.Relation

namespace LuaLift.Digraph

open Relation

variable (g : Digraph)

inductive Walks : List Nat → List Nat → List Nat → Walk → Prop where
  | nil (path unseen : List Nat) : Walks path unseen [] ⟨[], [], unseen⟩
  | back {path unseen ts : List Nat} {t : Nat} {w : Walk} (ht : t ∈ path)
      (hw : Walks path unseen ts w) :
      Walks path unseen (t :: ts) { w with retreating := (path.take 1).map (·, t) ++ w.retreating }
  | enter {path unseen ts : List Nat} {t : Nat} {v w : Walk} (ht : t ∉ path) (hu : t ∈ unseen)
      (hv : Walks (t :: path) (unseen.erase t) (g.succ t) v) (hw : Walks path v.unseen ts w) :
      Walks path unseen (t :: ts)
        ⟨v.postorder ++ t :: w.postorder, v.retreating ++ w.retreating, w.unseen⟩
  | seen {path unseen ts : List Nat} {t : Nat} {w : Walk} (ht : t ∉ path) (hu : t ∉ unseen)
      (hw : Walks path unseen ts w) : Walks path unseen (t :: ts) w

theorem walks (path unseen ts : List Nat) : g.Walks path unseen ts (g.walk path unseen ts).val := by
  induction path, unseen, ts using Digraph.walk.induct g with
  | case1 path unseen => rw [walk]; exact .nil path unseen
  | case2 path unseen t ts ht w hlt he ih =>
    rw [walk, if_pos ht, he]
    rw [he] at ih
    exact .back ht ih
  | case3 path unseen t ts ht hu hlt v hv hev w hw hew ihv ihw =>
    rw [walk, if_neg ht, dif_pos hu]
    obtain rfl : v = (g.walk (t :: path) (unseen.erase t) (g.succ t)).val := by rw [hev]
    obtain rfl : w = (g.walk path _ ts).val := by rw [hew]
    exact .enter ht hu ihv ihw
  | case4 path unseen t ts ht hu ih =>
    rw [walk, if_neg ht, dif_neg hu]
    exact .seen ht hu ih

def ReachesIn (S : Nat → Prop) : Nat → Nat → Prop := ReflTransGen fun a b => b ∈ g.succ a ∧ S b

def Reaches : Nat → Nat → Prop := ReflTransGen fun a b => b ∈ g.succ a

variable {g}

theorem ReachesIn.reaches {S : Nat → Prop} {a b : Nat} (h : g.ReachesIn S a b) : g.Reaches a b :=
  ReflTransGen.mono (fun _ _ h => h.1) _ _ h

namespace Walks

variable {path unseen ts : List Nat} {w : Walk}

theorem perm (h : g.Walks path unseen ts w) : (w.postorder ++ w.unseen).Perm unseen := by
  induction h with
  | nil path unseen => exact .refl _
  | back ht hw ih => exact ih
  | @enter path unseen ts t v w ht hu hv hw ihv ihw =>
    simp only [List.append_assoc, List.cons_append]
    calc (v.postorder ++ t :: (w.postorder ++ w.unseen)).Perm
          (t :: (v.postorder ++ (w.postorder ++ w.unseen))) := List.perm_middle
      _ |>.Perm (t :: (v.postorder ++ v.unseen)) := (ihw.append_left _).cons t
      _ |>.Perm (t :: unseen.erase t) := ihv.cons t
      _ |>.Perm unseen := (List.perm_cons_erase hu).symm
  | seen ht hu hw ih => exact ih

theorem mem_unseen (h : g.Walks path unseen ts w) {x : Nat} :
    x ∈ unseen ↔ x ∈ w.postorder ∨ x ∈ w.unseen := by
  rw [← h.perm.mem_iff, List.mem_append]

theorem nodup (h : g.Walks path unseen ts w) (hu : unseen.Nodup) :
    w.postorder.Nodup ∧ w.unseen.Nodup ∧ ∀ x ∈ w.postorder, x ∉ w.unseen := by
  have := h.perm.nodup_iff.2 hu
  rw [List.nodup_append] at this
  exact ⟨this.1, this.2.1, fun x hx hx' => this.2.2 x hx x hx' rfl⟩

theorem closed (h : g.Walks path unseen ts w) :
    (∀ t ∈ ts, t ∉ path → t ∈ unseen → t ∈ w.postorder) ∧
      ∀ a ∈ w.postorder, ∀ b ∈ g.succ a, b ∉ path → b ∈ unseen → b ∈ w.postorder := by
  induction h with
  | nil path unseen => simp
  | @back path unseen ts t w ht hw ih =>
    refine ⟨fun x hx hp hu => ?_, ih.2⟩
    rcases List.mem_cons.1 hx with rfl | hx
    · exact absurd ht hp
    · exact ih.1 x hx hp hu
  | @enter path unseen ts t v w ht hu hv hw ihv ihw =>
    -- What is unseen is `t`, or the walk from `t` finishes it, or it is left to the rest.
    have later {b : Nat} (hb : b ∈ unseen) : b = t ∨ b ∈ v.postorder ∨ b ∈ v.unseen := by
      by_cases hbt : b = t
      · exact .inl hbt
      · exact .inr (hv.mem_unseen.1 ((List.mem_erase_of_ne hbt).2 hb))
    simp only [List.mem_append, List.mem_cons]
    constructor
    · rintro x (rfl | hx) hp hxu
      · exact .inr (.inl rfl)
      · rcases later hxu with rfl | h | h
        · exact .inr (.inl rfl)
        · exact .inl h
        · exact .inr (.inr (ihw.1 x hx hp h))
    · intro a ha b hb hp hbu
      rcases later hbu with rfl | h | h
      · exact .inr (.inl rfl)
      · exact .inl h
      · by_cases hbt : b = t
        · exact .inr (.inl hbt)
        · have hbp : b ∉ t :: path := by simp [hbt, hp]
          have hbe : b ∈ unseen.erase t := hv.mem_unseen.2 (.inr h)
          rcases ha with ha | rfl | ha
          · exact .inl (ihv.2 a ha b hb hbp hbe)
          · exact .inl (ihv.1 b hb hbp hbe)
          · exact .inr (.inr (ihw.2 a ha b hb hp h))
  | @seen path unseen ts t w ht hu hw ih =>
    refine ⟨fun x hx hp hxu => ?_, ih.2⟩
    rcases List.mem_cons.1 hx with rfl | hx
    · exact absurd hxu hu
    · exact ih.1 x hx hp hxu

theorem reached (h : g.Walks path unseen ts w) {x : Nat} (hx : x ∈ w.postorder) :
    ∃ t ∈ ts, t ∈ unseen ∧ g.ReachesIn (· ∈ unseen) t x := by
  induction h with
  | nil path unseen => simp at hx
  | back ht hw ih =>
    obtain ⟨t, ht, h⟩ := ih hx
    exact ⟨t, .tail _ ht, h⟩
  | @enter path unseen ts t v w ht hu hv hw ihv ihw =>
    rcases List.mem_append.1 hx with hx | hx
    · obtain ⟨s, hs, hsu, hr⟩ := ihv hx
      have hr' : g.ReachesIn (· ∈ unseen) s x :=
        ReflTransGen.mono (fun _ _ h => ⟨h.1, List.mem_of_mem_erase h.2⟩) _ _ hr
      exact ⟨t, .head _, hu, .head ⟨hs, List.mem_of_mem_erase hsu⟩ hr'⟩
    · rcases List.mem_cons.1 hx with rfl | hx
      · exact ⟨x, .head _, hu, .refl⟩
      · obtain ⟨s, hs, hsu, hr⟩ := ihw hx
        have back {y : Nat} (hy : y ∈ v.unseen) : y ∈ unseen :=
          List.mem_of_mem_erase (hv.mem_unseen.2 (.inr hy))
        exact ⟨s, .tail _ hs, back hsu, ReflTransGen.mono (fun _ _ h => ⟨h.1, back h.2⟩) _ _ hr⟩
  | seen ht hu hw ih =>
    obtain ⟨t, ht, h⟩ := ih hx
    exact ⟨t, .tail _ ht, h⟩

theorem retreats {p : Nat} (h : g.Walks (p :: path) unseen ts w) {t : Nat} (ht : t ∈ ts)
    (hp : t ∈ p :: path) : (p, t) ∈ w.retreating := by
  generalize hq : p :: path = q at h hp
  induction h with
  | nil => simp at ht
  | back h hw ih =>
    rcases List.mem_cons.1 ht with rfl | ht
    · simp [← hq]
    · exact List.mem_append_right _ (ih ht hq hp)
  | enter h hu hv hw ihv ihw =>
    rcases List.mem_cons.1 ht with rfl | ht
    · exact absurd hp h
    · exact List.mem_append_right _ (ihw ht hq hp)
  | seen h hu hw ih =>
    rcases List.mem_cons.1 ht with rfl | ht
    · exact absurd hp h
    · exact ih ht hq hp

theorem ordered (h : g.Walks path unseen ts w) {a b : Nat} (ha : a ∈ w.postorder)
    (hb : b ∈ g.succ a) (hp : b ∈ path ∨ b ∈ unseen) :
    (a, b) ∈ w.retreating ∨ [b, a].Sublist w.postorder := by
  induction h with
  | nil path unseen => simp at ha
  | back ht hw ih => exact (ih ha hp).imp_left (List.mem_append_right _)
  | @enter path unseen ts t v w ht hu hv hw ihv ihw =>
    have inner (hbt : b ≠ t) (hb : b ∈ unseen) : b ∈ unseen.erase t := (List.mem_erase_of_ne hbt).2 hb
    have first (hbv : b ∈ v.postorder ++ [t]) (haw : a ∈ w.postorder) :
        [b, a].Sublist (v.postorder ++ t :: w.postorder) := by
      simpa using (List.singleton_sublist.2 hbv).append (List.singleton_sublist.2 haw)
    -- The source was finished below `t`, is `t` itself, or comes behind it.
    rcases List.mem_append.1 ha with hav | haw
    · have hp' : b ∈ t :: path ∨ b ∈ unseen.erase t := by
        by_cases hbt : b = t
        · exact .inl (hbt ▸ .head _)
        · exact hp.imp (.tail _) (inner hbt)
      exact (ihv hav hp').imp (List.mem_append_left _) fun h => h.trans (List.sublist_append_left _ _)
    rcases List.mem_cons.1 haw with rfl | haw
    · by_cases hpath : b ∈ a :: path
      · exact .inl (List.mem_append_left _ (hv.retreats hb hpath))
      · simp only [List.mem_cons, not_or] at hpath
        have hbu : b ∈ unseen.erase a := inner hpath.1 (hp.resolve_left hpath.2)
        have hbv : b ∈ v.postorder := hv.closed.1 b hb (by simp [hpath]) hbu
        have := (List.singleton_sublist.2 hbv).append
          ((List.nil_sublist w.postorder).cons_cons a)
        exact .inr (by simpa using this)
    · by_cases hbv : b ∈ v.postorder ++ [t]
      · exact .inr (first hbv haw)
      · simp only [List.mem_append, List.mem_singleton, not_or] at hbv
        have hp' : b ∈ path ∨ b ∈ v.unseen :=
          hp.imp_right fun hbu => (hv.mem_unseen.1 (inner hbv.2 hbu)).resolve_left hbv.1
        refine (ihw haw hp').imp (List.mem_append_right _) fun h => ?_
        exact (h.trans (List.sublist_cons_self _ _)).trans (List.sublist_append_right _ _)
  | seen ht hu hw ih => exact ih ha hp

end Walks

def InRange (g : Digraph) : Prop := ∀ a, ∀ b ∈ g.succ a, b < g.size

theorem mem_walkIn {allowed roots : List Nat} {x : Nat} :
    x ∈ (g.walkIn allowed roots).postorder ↔
      ∃ r ∈ roots, r ∈ allowed ∧ g.ReachesIn (· ∈ allowed) r x := by
  have h := g.walks [] allowed roots
  constructor
  · exact h.reached
  · rintro ⟨r, hr, hra, hx⟩
    induction hx with
    | refl => exact h.closed.1 r hr (by simp) hra
    | tail _ hb ih => exact h.closed.2 _ ih _ hb.1 (by simp) hb.2

theorem nodup_walkFrom {root : Nat} : (g.walkFrom root).postorder.Nodup :=
  ((g.walks [] _ _).nodup List.nodup_range).1

section InRange

variable (hg : g.InRange)
include hg

theorem reachesIn_iff {S T : Nat → Prop} (hST : ∀ x < g.size, S x ↔ T x) {a b : Nat} :
    g.ReachesIn S a b ↔ g.ReachesIn T a b := by
  have mono {S T : Nat → Prop} (hST : ∀ x < g.size, S x → T x) (h : g.ReachesIn S a b) :
      g.ReachesIn T a b :=
    ReflTransGen.mono (fun _ _ h => ⟨h.1, hST _ (hg _ _ h.1) h.2⟩) _ _ h
  exact ⟨mono fun x hx => (hST x hx).1, mono fun x hx => (hST x hx).2⟩

theorem mem_walkFrom {root x : Nat} (hr : root < g.size) :
    x ∈ (g.walkFrom root).postorder ↔ g.Reaches root x := by
  rw [walkFrom, mem_walkIn]
  have : g.ReachesIn (· ∈ List.range g.size) root x ↔ g.ReachesIn (fun _ => True) root x :=
    reachesIn_iff hg fun y hy => by simp [hy]
  simp only [List.mem_singleton, exists_eq_left, List.mem_range, hr, true_and] at this ⊢
  rw [this]
  exact ⟨fun h => h.reaches, ReflTransGen.mono (fun _ _ h => ⟨h, trivial⟩) _ _⟩

theorem mem_reachAvoiding {root d x : Nat} (hr : root < g.size) :
    x ∈ g.reachAvoiding root d ↔ root ≠ d ∧ g.ReachesIn (· ≠ d) root x := by
  rw [reachAvoiding, mem_walkIn]
  have : g.ReachesIn (· ∈ (List.range g.size).erase d) root x ↔ g.ReachesIn (· ≠ d) root x :=
    reachesIn_iff hg fun y hy => by simp [List.nodup_range.mem_erase_iff, hy]
  simp only [List.mem_singleton, exists_eq_left, List.nodup_range.mem_erase_iff, List.mem_range, hr,
    and_true] at this ⊢
  rw [this]

theorem walkFrom_ordered {root a b : Nat} (ha : a ∈ (g.walkFrom root).postorder) (hb : b ∈ g.succ a) :
    (a, b) ∈ (g.walkFrom root).retreating ∨ [b, a].Sublist (g.walkFrom root).postorder :=
  (g.walks [] _ _).ordered ha hb (.inr (List.mem_range.2 (hg a b hb)))

end InRange

end LuaLift.Digraph
