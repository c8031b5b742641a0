import LuaLift.Proofs.Slots.Reaching

namespace LuaLift

inductive Site.Before (f : Flow) : Site → Site → Prop where
  | parameters {s t : Slot} (h : s < t) : Before f (.parameter s) (.parameter t)
  | entry {s : Slot} {b : BlockId} {i j : Nat} : Before f (.parameter s) (.target b i j)
  | block {b c : BlockId} {i j k l m n : Nat} (hb : f.position? b = some m) (hc : f.position? c = some n)
    (h : m < n) : Before f (.target b i j) (.target c k l)
  | stmt {b : BlockId} {i j k l : Nat} (h : i < k) : Before f (.target b i j) (.target b k l)
  | position {b : BlockId} {i j l : Nat} (h : j < l) : Before f (.target b i j) (.target b i l)

theorem Site.Before.irrefl {f : Flow} {site : Site} : ¬site.Before f site := by
  intro h
  cases h with
  | parameters h => exact Nat.lt_irrefl _ h
  | block hb hc h =>
    obtain rfl := Option.some.inj (hb.symm.trans hc)
    exact Nat.lt_irrefl _ h
  | stmt h => exact Nat.lt_irrefl _ h
  | position h => exact Nat.lt_irrefl _ h

theorem pairwise_zipIdx {α : Type} (l : List α) (k : Nat) : (l.zipIdx k).Pairwise fun e e' => e.2 < e'.2 := by
  have hsnd : ((l.zipIdx k).map Prod.snd).Pairwise (· < ·) := by
    rw [List.zipIdx_map_snd]
    exact List.pairwise_lt_range'
  exact List.pairwise_map.1 hsnd

theorem Stmt.pairwise_slotTargets (s : Stmt) : s.slotTargets.Pairwise fun e e' => e.1 < e'.1 := by
  cases s with
  | assign a =>
    rw [slotTargets, List.pairwise_filterMap]
    refine (pairwise_zipIdx a.targets 0).imp ?_
    rintro ⟨e, i⟩ ⟨e', i'⟩ h t ht t' ht'
    obtain ⟨x, -, rfl⟩ := Option.map_eq_some_iff.1 ht
    obtain ⟨x', -, rfl⟩ := Option.map_eq_some_iff.1 ht'
    exact h
  | _ => exact .nil

namespace Definitions

variable {p : Proto} {f : Flow}

theorem pairwise_ofBlock (f : Flow) (b : BlockId) :
    (ofBlock p b).Pairwise fun d e => d.site.Before f e.site := by
  rw [ofBlock, List.pairwise_flatMap]
  constructor
  · rintro ⟨s, i⟩ -
    apply List.Pairwise.map _ _ s.pairwise_slotTargets
    rintro ⟨m, x⟩ ⟨n, y⟩ h
    exact .position h
  · apply (pairwise_zipIdx (p.body b) 0).imp
    rintro ⟨s, i⟩ ⟨s', i'⟩ h d hd e he
    obtain ⟨t, -, rfl⟩ := List.mem_map.1 hd
    obtain ⟨t', -, rfl⟩ := List.mem_map.1 he
    exact .stmt h

theorem pairwise_of : (of p f).list.Pairwise fun d e => d.site.Before f e.site := by
  rw [of, List.pairwise_append]
  refine ⟨?_, ?_, ?_⟩
  · apply List.Pairwise.map _ _ List.pairwise_lt_range
    intro s t h
    exact .parameters h
  · rw [List.pairwise_flatMap]
    refine ⟨fun b _ => pairwise_ofBlock f b, ?_⟩
    rw [List.pairwise_iff_getElem]
    intro m n hm hn hmn d hd e he
    obtain ⟨i, -, j, -, -, hdsite⟩ := mem_ofBlock.1 hd
    obtain ⟨k, -, l, -, -, hesite⟩ := mem_ofBlock.1 he
    rw [hdsite, hesite]
    exact .block (idxOf?_getElem f.nodup_order hm) (idxOf?_getElem f.nodup_order hn) hmn
  · intro d hd e he
    obtain ⟨s, -, rfl⟩ := List.mem_map.1 hd
    obtain ⟨b, -, hb⟩ := List.mem_flatMap.1 he
    obtain ⟨i, -, j, -, -, hsite⟩ := mem_ofBlock.1 hb
    rw [hsite]
    exact .entry

theorem before_of_lt {m n : Nat} {d e : Definition} (hd : (of p f).list[m]? = some d)
    (he : (of p f).list[n]? = some e) (h : m < n) : d.site.Before f e.site := by
  obtain ⟨hm, rfl⟩ := List.getElem?_eq_some_iff.1 hd
  obtain ⟨hn, rfl⟩ := List.getElem?_eq_some_iff.1 he
  exact List.pairwise_iff_getElem.1 pairwise_of m n hm hn h

theorem number?_of_getElem? {n : Nat} {d : Definition} (hd : (of p f).list[n]? = some d) :
    (of p f).number? d.site = some n := by
  obtain ⟨m, hm⟩ := exists_number? (List.mem_of_getElem? hd)
  obtain ⟨x, hx⟩ := number?_eq_some hm
  rcases Nat.lt_trichotomy m n with h | rfl | h
  · exact absurd (before_of_lt hx hd h) Site.Before.irrefl
  · exact hm
  · exact absurd (before_of_lt hd hx h) Site.Before.irrefl

end Definitions

end LuaLift
