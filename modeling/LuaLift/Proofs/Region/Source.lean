import LuaLift.Proofs.Proto.Shape
import LuaLift.Region.Build

/-!
Structured programs in a block graph. Code passes on to a place behind it, or it ends: it leaves the
function, goes back to the header of the loop around it or breaks out of that loop. Where a branch
rejoins, both of its arms pass on; in a loop, what is behind leads back to the header.
-/

namespace LuaLift

structure Around where
  header : BlockId
  follow : BlockId
  closing : Option BlockId

structure Extent where
  header : BlockId
  rest : List BlockId

def Extent.blocks (l : Extent) : List BlockId := l.header :: l.rest

def Precedes (bs : List BlockId) (u t : BlockId) : Prop := [u, t].Sublist bs

@[grind =]
theorem precedes_cons {bs : List BlockId} {b u t : BlockId} :
    Precedes (b :: bs) u t ↔ u = b ∧ t ∈ bs ∨ Precedes bs u t := by
  rw [Precedes, Precedes, List.sublist_cons_iff]
  constructor
  · rintro (h | ⟨r, hr, h⟩)
    · exact .inr h
    · cases hr
      exact .inl ⟨rfl, List.singleton_sublist.1 h⟩
  · rintro (⟨rfl, h⟩ | h)
    · exact .inr ⟨_, rfl, List.singleton_sublist.2 h⟩
    · exact .inl h

@[grind =]
theorem precedes_append {l r : List BlockId} {u t : BlockId} :
    Precedes (l ++ r) u t ↔ Precedes l u t ∨ u ∈ l ∧ t ∈ r ∨ Precedes r u t := by
  induction l with
  | nil => simp [Precedes]
  | cons b l ih => grind

theorem Precedes.mem {bs : List BlockId} {u t : BlockId} (h : Precedes bs u t) : u ∈ bs ∧ t ∈ bs :=
  ⟨h.subset (.head _), h.subset (.tail _ (.head _))⟩

def Around.Takes (a : Option Around) (u t : BlockId) : Prop :=
  ∃ A ∈ a, t = A.follow ∨ t = A.header ∧ (A.closing = none ∨ A.closing = some u)

def Around.Clear (a : Option Around) (b : BlockId) (bs : List BlockId) : Prop :=
  ∀ A ∈ a, A.follow ∉ bs ∧ (A.header ∈ bs → A.header = b ∧ A.closing ≠ none)

def Around.Resumes (a : Option Around) (t : BlockId) : Prop :=
  ∃ A ∈ a, t = A.follow ∨ t = A.header ∧ A.closing = none

theorem Around.Resumes.takes {a : Option Around} {t : BlockId} (h : Around.Resumes a t) (u : BlockId) :
    Around.Takes a u t := by
  obtain ⟨A, hA, h⟩ := h
  exact ⟨A, hA, h.imp_right fun h => ⟨h.1, .inl h.2⟩⟩

theorem Around.Clear.notMem {a : Option Around} {b t : BlockId} {bs : List BlockId}
    (h : Around.Clear a b bs) (ht : Around.Resumes a t) : t ∉ bs := by
  intro hm
  obtain ⟨A, hA, rfl | ⟨rfl, hc⟩⟩ := ht
  · exact (h A hA).1 hm
  · exact ((h A hA).2 hm).2 hc

theorem Around.Clear.eq_of_takes {a : Option Around} {b u t : BlockId} {bs : List BlockId}
    (h : Around.Clear a b bs) (ht : Around.Takes a u t) (hm : t ∈ bs) : t = b := by
  obtain ⟨A, hA, rfl | ⟨rfl, -⟩⟩ := ht
  · exact absurd hm (h A hA).1
  · exact ((h A hA).2 hm).1

@[simp, grind =]
theorem Around.resumes_some {A : Around} {t : BlockId} :
    Around.Resumes (some A) t ↔ t = A.follow ∨ t = A.header ∧ A.closing = none := by
  simp [Resumes]

theorem Around.clear_some {A : Around} {b : BlockId} {bs : List BlockId} : Around.Clear (some A) b bs ↔
    A.follow ∉ bs ∧ (A.header ∈ bs → A.header = b ∧ A.closing ≠ none) := by
  simp [Clear]

theorem Around.Clear.inner {a : Option Around} {b c : BlockId} {bs cs : List BlockId}
    (h : Around.Clear a b bs) (hs : ∀ x ∈ cs, x ∈ bs ∧ x ≠ b) : Around.Clear a c cs := by
  intro A hA
  obtain ⟨hf, hh⟩ := h A hA
  exact ⟨fun hm => hf (hs _ hm).1, fun hm => absurd (hh (hs _ hm).1).1 (hs _ hm).2⟩

@[simp, grind =]
theorem Around.takes_some {A : Around} {u t : BlockId} : Around.Takes (some A) u t ↔
    t = A.follow ∨ t = A.header ∧ (A.closing = none ∨ A.closing = some u) := by
  simp [Takes]

@[simp, grind =]
theorem Extent.mem_blocks {l : Extent} {u : BlockId} : u ∈ l.blocks ↔ u = l.header ∨ u ∈ l.rest :=
  List.mem_cons

namespace Proto

variable (p : Proto)

def Tests (b : BlockId) (c : Expr) (t e : BlockId) : Prop :=
  p.jump b = .branch c t e ∨ ∃ d, p.jump b = .branch d e t ∧ c = d.negate

inductive Passes : Body → BlockId → BlockId → List BlockId → Prop
  | done {j : BlockId} : Passes [] j j []
  | always {b t j : BlockId} {rest : Body} {bs : List BlockId} (hj : p.jump b = .always t)
      (hr : Passes rest t j bs) : Passes ((p.body b).map .stmt ++ rest) b j (b :: bs)
  | branch {b t e m j : BlockId} {c : Expr} {x y rest : Body} {ts es bs : List BlockId}
      (hj : p.jump b = .branch c t e) (hx : Passes x t m ts) (hy : Passes y e m es)
      (hr : Passes rest m j bs) :
      Passes ((p.body b).map .stmt ++ Plan.conditional c x y :: rest) b j (b :: (ts ++ (es ++ bs)))

/-- Code behind which nothing comes, with its blocks and the loops among them. -/
inductive Ends : Option Around → Body → BlockId → List BlockId → List Extent → Prop
  | leave {a : Option Around} {b : BlockId} (hj : p.jump b = .leave) :
      Ends a ((p.body b).map .stmt) b [b] []
  | again {A : Around} (hc : A.closing = none) : Ends (some A) [] A.header [] []
  | brk {A : Around} : Ends (some A) [.brk] A.follow [] []
  | closing {A : Around} {b : BlockId} {c : Expr} (hc : A.closing = some b)
      (hj : p.Tests b c A.follow A.header) : Ends (some A) ((p.body b).map .stmt) b [b] []
  | always {a : Option Around} {b t : BlockId} {rest : Body} {bs : List BlockId} {ls : List Extent}
      (hj : p.jump b = .always t) (hr : Ends a rest t bs ls) :
      Ends a ((p.body b).map .stmt ++ rest) b (b :: bs) ls
  | rejoin {a : Option Around} {b t e m : BlockId} {c : Expr} {x y rest : Body}
      {ts es bs : List BlockId} {ls : List Extent} (hj : p.jump b = .branch c t e)
      (hx : p.Passes x t m ts) (hy : p.Passes y e m es) (hr : Ends a rest m bs ls) (hm : m ∈ bs)
      (hback : ∀ A ∈ a, ∃ u ∈ bs, A.header ∈ (p.jump u).targets) :
      Ends a ((p.body b).map .stmt ++ Plan.conditional c x y :: rest) b (b :: (ts ++ (es ++ bs))) ls
  | fork {a : Option Around} {b t e : BlockId} {c : Expr} {x y : Body} {ts es : List BlockId}
      {ls ls' : List Extent} (hj : p.jump b = .branch c t e) (hx : Ends a x t ts ls)
      (hy : Ends a y e es ls') :
      Ends a ((p.body b).map .stmt ++ [Plan.conditional c x y]) b (b :: (ts ++ es)) (ls ++ ls')
  | whileDo {a : Option Around} {b t e : BlockId} {c : Expr} {x rest : Body} {ts es : List BlockId}
      {ls ls' : List Extent} (hb : p.body b = []) (hj : p.Tests b c t e)
      (hx : Ends (some ⟨b, e, none⟩) x t ts ls) (hback : ∃ u ∈ b :: ts, b ∈ (p.jump u).targets)
      (hr : Ends a rest e es ls') :
      Ends a (.whileDo c x :: rest) b (b :: (ts ++ es)) (⟨b, ts⟩ :: (ls ++ ls'))
  | repeatUntil {a : Option Around} {b u w : BlockId} {c : Expr} {x rest : Body}
      {ts es : List BlockId} {ls ls' : List Extent} (hb : p.body b ≠ []) (hj : p.Tests u c w b)
      (hx : Ends (some ⟨b, w, some u⟩) x b (b :: ts) ls) (hu : u ∈ b :: ts)
      (hl : ∀ l ∈ ls, l.header ≠ b) (hr : Ends a rest w es ls') :
      Ends a (.repeatUntil x c :: rest) b (b :: (ts ++ es)) (⟨b, ts⟩ :: (ls ++ ls'))

variable {p} {body : Body} {b j : BlockId} {bs : List BlockId} {a : Option Around} {ls : List Extent}

theorem Tests.mem_targets {c : Expr} {t e : BlockId} (h : p.Tests b c t e) {x : BlockId} :
    x ∈ (p.jump b).targets ↔ x = t ∨ x = e := by
  rcases h with h | ⟨d, h, -⟩
  · simp [h, Jump.targets]
  · simp [h, Jump.targets, or_comm]

theorem Tests.swap {c : Expr} {t e : BlockId} (h : p.Tests b c t e) : ∃ d, p.Tests b d e t := by
  rcases h with h | ⟨d, h, rfl⟩
  · exact ⟨_, .inr ⟨c, h, rfl⟩⟩
  · exact ⟨d, .inl h⟩

theorem targets_of_always {t : BlockId} (hj : p.jump b = .always t) : (p.jump b).targets = [t] := by
  rw [hj, Jump.targets]

theorem targets_of_branch {c : Expr} {t e : BlockId} (hj : p.jump b = .branch c t e) :
    (p.jump b).targets = [t, e] := by
  rw [hj, Jump.targets]

def Led (p : Proto) (b : BlockId) (bs : List BlockId) : Prop :=
  ∀ x ∈ bs, x = b ∨ ∃ u, Precedes bs u x ∧ x ∈ (p.jump u).targets

namespace Passes

theorem start (h : p.Passes body b j bs) : b ∈ bs ∨ b = j ∧ bs = [] := by
  cases h with
  | done => exact .inr ⟨rfl, rfl⟩
  | always | branch => exact .inl (.head _)

theorem edge (h : p.Passes body b j bs) {u t : BlockId} (hu : u ∈ bs) (ht : t ∈ (p.jump u).targets) :
    t = j ∨ Precedes bs u t := by
  induction h with
  | done => cases hu
  | always hj hr ih =>
    have := hr.start
    rcases List.mem_cons.1 hu with rfl | hu
    · simp only [hj, Jump.targets, List.mem_singleton] at ht
      grind
    · grind
  | branch hj hx hy hr ihx ihy ihr =>
    have hx := hx.start
    have hy := hy.start
    have hr := hr.start
    rcases List.mem_cons.1 hu with rfl | hu
    · simp only [hj, Jump.targets, List.mem_cons, List.not_mem_nil, or_false] at ht
      grind
    · grind

theorem stays (h : p.Passes body b j bs) {u t : BlockId} (hu : u ∈ bs)
    (ht : t ∈ (p.jump u).targets) : t ∈ bs ∨ t = j :=
  (h.edge hu ht).symm.imp_left fun h => h.mem.2

theorem exit (h : p.Passes body b j bs) : b = j ∧ bs = [] ∨ ∃ u ∈ bs, j ∈ (p.jump u).targets := by
  induction h with
  | done => exact .inl ⟨rfl, rfl⟩
  | always hj hr ih =>
    rcases ih with ⟨rfl, rfl⟩ | ⟨u, hu, ht⟩
    · exact .inr ⟨_, .head _, by simp [hj, Jump.targets]⟩
    · exact .inr ⟨u, .tail _ hu, ht⟩
  | branch hj hx hy hr ihx ihy ihr =>
    rcases ihr with ⟨rfl, rfl⟩ | ⟨u, hu, ht⟩
    · rcases ihx with ⟨rfl, rfl⟩ | ⟨u, hu, ht⟩
      · exact .inr ⟨_, .head _, by simp [hj, Jump.targets]⟩
      · exact .inr ⟨u, .tail _ (List.mem_append_left _ hu), ht⟩
    · exact .inr ⟨u, .tail _ (List.mem_append_right _ (List.mem_append_right _ hu)), ht⟩

theorem led (h : p.Passes body b j bs) : p.Led b bs := by
  induction h with
  | done => intro x hx; cases hx
  | @always b t j rest bs hj hr ih =>
    intro x hx
    have ht : t ∈ (p.jump b).targets := by simp [hj, Jump.targets]
    have := ih x
    grind
  | @branch b t e m j c x y rest ts es bs hj hx hy hr ihx ihy ihr =>
    intro v hv
    have ht : t ∈ (p.jump b).targets ∧ e ∈ (p.jump b).targets := by simp [hj, Jump.targets]
    have hm := hx.exit
    have := ihx v
    have := ihy v
    have := ihr v
    grind

end Passes

namespace Ends

theorem start (h : p.Ends a body b bs ls) :
    (∃ cs, bs = b :: cs) ∨ bs = [] ∧ ls = [] ∧ Around.Resumes a b := by
  cases h with
  | again hc => exact .inr ⟨rfl, rfl, _, rfl, .inr ⟨rfl, hc⟩⟩
  | brk => exact .inr ⟨rfl, rfl, _, rfl, .inl rfl⟩
  | _ => exact .inl ⟨_, rfl⟩

theorem resumes (h : p.Ends a body b bs ls) : b ∈ bs ∨ Around.Resumes a b := by
  rcases h.start with ⟨cs, rfl⟩ | ⟨-, -, hb⟩
  · exact .inl (.head _)
  · exact .inr hb

theorem edge (h : p.Ends a body b bs ls) {u t : BlockId} (hu : u ∈ bs) (ht : t ∈ (p.jump u).targets) :
    Precedes bs u t ∨ Around.Takes a u t ∨ ∃ l ∈ ls, t = l.header ∧ u ∈ l.blocks := by
  induction h with
  | leave hj =>
    obtain rfl := List.mem_singleton.1 hu
    simp [hj, Jump.targets] at ht
  | again | brk => cases hu
  | @closing A b c hc hj =>
    obtain rfl := List.mem_singleton.1 hu
    rw [hj.mem_targets] at ht
    exact .inr (.inl ⟨A, rfl, ht.imp_right fun h => ⟨h, .inr hc⟩⟩)
  | always hj hr ih =>
    have := hr.resumes.imp_right (·.takes u)
    rcases List.mem_cons.1 hu with rfl | hu
    · simp only [hj, Jump.targets, List.mem_singleton] at ht
      grind
    · grind
  | rejoin hj hx hy hr hm hback ih =>
    have hx' := hx.start
    have hy' := hy.start
    have hxe := hx.edge (u := u) (t := t)
    have hye := hy.edge (u := u) (t := t)
    rcases List.mem_cons.1 hu with rfl | hu
    · simp only [hj, Jump.targets, List.mem_cons, List.not_mem_nil, or_false] at ht
      grind
    · grind
  | fork hj hx hy ihx ihy =>
    have := hx.resumes.imp_right (·.takes u)
    have := hy.resumes.imp_right (·.takes u)
    rcases List.mem_cons.1 hu with rfl | hu
    · simp only [hj, Jump.targets, List.mem_cons, List.not_mem_nil, or_false] at ht
      grind
    · grind
  | @whileDo a b t' e c x rest ts es ls ls' hb hj hx hback hr ihx ihr =>
    have own (ht : t = b) (hu : u = b ∨ u ∈ ts) : ∃ l ∈ ⟨b, ts⟩ :: (ls ++ ls'), t = l.header ∧ u ∈ l.blocks :=
      ⟨_, .head _, ht, Extent.mem_blocks.2 hu⟩
    have hx := hx.resumes.imp_right (·.takes u)
    have hr := hr.resumes.imp_right (·.takes u)
    have := hj.mem_targets (x := t)
    grind
  | @repeatUntil a b v w c x rest ts es ls ls' hb hj hx hv hl hr ihx ihr =>
    have own (ht : t = b) (hu : u = b ∨ u ∈ ts) : ∃ l ∈ ⟨b, ts⟩ :: (ls ++ ls'), t = l.header ∧ u ∈ l.blocks :=
      ⟨_, .head _, ht, Extent.mem_blocks.2 hu⟩
    have hr := hr.resumes.imp_right (·.takes u)
    grind

theorem led (h : p.Ends a body b bs ls) : p.Led b bs := by
  induction h with
  | again | brk => intro x hx; cases hx
  | leave | closing => exact fun x hx => .inl (List.mem_singleton.1 hx)
  | @always a b t rest bs ls hj hr ih =>
    intro v hv
    have ht : t ∈ (p.jump b).targets := by simp [hj, Jump.targets]
    have := ih v
    grind
  | @rejoin a b t e m c x y rest ts es bs ls hj hx hy hr hm hback ih =>
    intro v hv
    have ht : t ∈ (p.jump b).targets ∧ e ∈ (p.jump b).targets := by simp [hj, Jump.targets]
    have hm := hx.exit
    have := hx.led v
    have := hy.led v
    have := ih v
    grind
  | @fork a b t e c x y ts es ls ls' hj hx hy ihx ihy =>
    intro v hv
    have ht : t ∈ (p.jump b).targets ∧ e ∈ (p.jump b).targets := by simp [hj, Jump.targets]
    have := ihx v
    have := ihy v
    grind
  | @whileDo a b t e c x rest ts es ls ls' hb hj hx hback hr ihx ihr =>
    intro v hv
    have ht : t ∈ (p.jump b).targets ∧ e ∈ (p.jump b).targets := by simp [hj.mem_targets]
    have := ihx v
    have := ihr v
    grind
  | @repeatUntil a b u w c x rest ts es ls ls' hb hj hx hu hl hr ihx ihr =>
    intro v hv
    have hw : w ∈ (p.jump u).targets := by simp [hj.mem_targets]
    have := ihx v
    have := ihr v
    grind

theorem blocks_sublist (h : p.Ends a body b bs ls) {l : Extent} (hl : l ∈ ls) : l.blocks.Sublist bs := by
  induction h with
  | leave | again | brk | closing => cases hl
  | always hj hr ih => exact (ih hl).cons _
  | rejoin hj hx hy hr hm hback ih =>
    exact (((ih hl).trans (List.sublist_append_right _ _)).trans (List.sublist_append_right _ _)).cons _
  | fork hj hx hy ihx ihy =>
    rcases List.mem_append.1 hl with hl | hl
    · exact ((ihx hl).trans (List.sublist_append_left _ _)).cons _
    · exact ((ihy hl).trans (List.sublist_append_right _ _)).cons _
  | whileDo hb hj hx hback hr ihx ihr =>
    rcases List.mem_cons.1 hl with rfl | hl
    · exact (List.sublist_append_left _ _).cons_cons _
    · rcases List.mem_append.1 hl with hl | hl
      · exact ((ihx hl).trans (List.sublist_append_left _ _)).cons _
      · exact ((ihr hl).trans (List.sublist_append_right _ _)).cons _
  | repeatUntil hb hj hx hu hl' hr ihx ihr =>
    rcases List.mem_cons.1 hl with rfl | hl
    · exact (List.sublist_append_left _ _).cons_cons _
    · rcases List.mem_append.1 hl with hl | hl
      · exact (ihx hl).trans (List.sublist_append_left (_ :: _) _)
      · exact ((ihr hl).trans (List.sublist_append_right _ _)).cons _

theorem header_mem (h : p.Ends a body b bs ls) {l : Extent} (hl : l ∈ ls) : l.header ∈ bs :=
  (h.blocks_sublist hl).subset (.head _)

theorem stays (h : p.Ends a body b bs ls) {u t : BlockId} (hu : u ∈ bs)
    (ht : t ∈ (p.jump u).targets) : t ∈ bs ∨ Around.Takes a u t := by
  rcases h.edge hu ht with h | h | ⟨l, hl, rfl, -⟩
  · exact .inl h.mem.2
  · exact .inr h
  · exact .inl (h.header_mem hl)

theorem nodup_headers (h : p.Ends a body b bs ls) (hn : bs.Nodup) : (ls.map (·.header)).Nodup := by
  induction h with
  | leave | again | brk | closing => exact List.nodup_nil
  | always hj hr ih => exact ih hn.of_cons
  | rejoin hj hx hy hr hm hback ih => grind
  | fork hj hx hy ihx ihy =>
    have := fun l => hx.header_mem (l := l)
    have := fun l => hy.header_mem (l := l)
    grind
  | whileDo hb hj hx hback hr ihx ihr =>
    have := fun l => hx.header_mem (l := l)
    have := fun l => hr.header_mem (l := l)
    grind
  | repeatUntil hb hj hx hu hl hr ihx ihr =>
    have := fun l => hx.header_mem (l := l)
    have := fun l => hr.header_mem (l := l)
    grind

theorem mem_of_blocks (h : p.Ends a body b bs ls) {l : Extent} (hl : l ∈ ls) {u : BlockId}
    (hu : u ∈ l.blocks) : u ∈ bs := (h.blocks_sublist hl).subset hu

theorem start_notMem (h : p.Ends a body b bs ls) (hn : bs.Nodup) {l : Extent} (hl : l ∈ ls) : b ∉ l.rest := by
  intro hb
  have hp : Precedes bs l.header b := (show Precedes l.blocks l.header b by
    rw [Extent.blocks, precedes_cons]; exact .inl ⟨rfl, hb⟩).trans (h.blocks_sublist hl)
  rcases h.start with ⟨cs, rfl⟩ | ⟨-, rfl, -⟩
  · have := @Precedes.mem cs l.header b
    grind
  · cases hl

theorem inside (h : p.Ends a body b bs ls) (hn : bs.Nodup) {l : Extent} (hl : l ∈ ls) {t : BlockId}
    (ht : t ∈ l.rest) : t ∈ bs ∧ t ≠ b :=
  ⟨h.mem_of_blocks hl (.tail _ ht), fun he => h.start_notMem hn hl (he ▸ ht)⟩

theorem parted {ts es : List BlockId} {w : BlockId} (h : p.Ends a body w es ls) (hn : (b :: (ts ++ es)).Nodup)
    (hc : Around.Clear a b (b :: (ts ++ es))) {u t : BlockId} (hu : u ∈ b :: (ts ++ es))
    (ht : t ∈ (p.jump u).targets) (hx : u ∈ b :: ts → t ∈ b :: ts ∨ t = w) :
    (t ∈ ts → u ∈ b :: ts) ∧ (t ∈ es → t ≠ w → u ∈ es) := by
  rcases List.mem_append.1 (show u ∈ (b :: ts) ++ es from hu) with hu' | hu'
  · refine ⟨fun _ => hu', fun he hne => ?_⟩
    have := (hx hu').resolve_right hne
    grind
  · refine ⟨fun hts => ?_, fun _ _ => hu'⟩
    rcases h.stays hu' ht with he | hout
    · grind
    · -- Code behind the loop leaves for the loop around it, whose header is not in here.
      have := hc.eq_of_takes hout (by grind)
      grind

theorem sealed (h : p.Ends a body b bs ls) (hn : bs.Nodup) (hc : Around.Clear a b bs) {l : Extent}
    (hl : l ∈ ls) {u t : BlockId} (hu : u ∈ bs) (ht : t ∈ (p.jump u).targets) (hr : t ∈ l.rest) :
    u ∈ l.blocks := by
  induction h with
  | leave | again | brk | closing => cases hl
  | @always a b t' rest bs ls hj h ih =>
    have hj := targets_of_always hj
    obtain ⟨hm, hne⟩ := h.inside hn.of_cons hl hr
    have hc' : Around.Clear a t' bs := hc.inner (by grind)
    grind
  | @rejoin a b t' e m c x y rest ts es bs ls hj hx hy h hm hback ih =>
    have hj := targets_of_branch hj
    obtain ⟨hmem, hne⟩ := h.inside (by grind) hl hr
    have hxs := hx.start
    have hys := hy.start
    have hxe := hx.stays (u := u) (t := t)
    have hye := hy.stays (u := u) (t := t)
    have hc' : Around.Clear a m bs := hc.inner (by grind)
    grind
  | @fork a b t' e c x y ts es ls ls' hj hx hy ihx ihy =>
    have hj := targets_of_branch hj
    have hout := hc.eq_of_takes (u := u) (t := t)
    have hres := fun t => hc.notMem (t := t)
    have hxs := hx.resumes
    have hys := hy.resumes
    have hcx : Around.Clear a t' ts := hc.inner (by grind)
    have hcy : Around.Clear a e es := hc.inner (by grind)
    rcases List.mem_append.1 hl with hl | hl
    · obtain ⟨hm, hne⟩ := hx.inside (by grind) hl hr
      have hye := hy.stays (u := u) (t := t)
      grind
    · obtain ⟨hm, hne⟩ := hy.inside (by grind) hl hr
      have hxe := hx.stays (u := u) (t := t)
      grind
  | @whileDo a b t' e c x rest ts es ls ls' hb hj hx hback h ihx ihr =>
    have hj := hj.mem_targets (x := t)
    have hres := fun t => hc.notMem (t := t)
    have hxs := hx.resumes
    have hys := h.resumes
    have hcx : Around.Clear (some ⟨b, e, none⟩) t' ts := by
      rw [Around.clear_some]
      have := hres e
      grind
    have hcy : Around.Clear a e es := hc.inner (by grind)
    have hxe := hx.stays (u := u) (t := t)
    obtain ⟨hbody, hbehind⟩ := h.parted hn hc hu ht (by grind)
    rcases List.mem_cons.1 hl with rfl | hl
    · exact hbody hr
    rcases List.mem_append.1 hl with hl | hl
    · obtain ⟨hm, hne⟩ := hx.inside (by grind) hl hr
      grind
    · obtain ⟨hm, hne⟩ := h.inside (by grind) hl hr
      exact ihr (by grind) hcy hl (hbehind hm hne)
  | @repeatUntil a b v w c x rest ts es ls ls' hb hj hx hv hl' h ihx ihr =>
    have hres := fun t => hc.notMem (t := t)
    have hys := h.resumes
    have hcx : Around.Clear (some ⟨b, w, some v⟩) b (b :: ts) := by
      rw [Around.clear_some]
      have := hres w
      grind
    have hcy : Around.Clear a w es := hc.inner (by grind)
    have hxe := hx.stays (u := u) (t := t)
    obtain ⟨hbody, hbehind⟩ := h.parted hn hc hu ht (by grind)
    rcases List.mem_cons.1 hl with rfl | hl
    · exact hbody hr
    rcases List.mem_append.1 hl with hl | hl
    · obtain ⟨hm, hne⟩ := hx.inside (by grind) hl hr
      exact ihx (by grind) hcx hl (hbody (by grind))
    · obtain ⟨hm, hne⟩ := h.inside (by grind) hl hr
      exact ihr (by grind) hcy hl (hbehind hm hne)

end Ends

end Proto

end LuaLift
