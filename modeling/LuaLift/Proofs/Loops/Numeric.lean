import LuaLift.Proofs.Loops.Hidden

namespace LuaLift

open Machine

variable {V W : Type}

structure Control (V : Type) where
  index : V
  limit : V
  step : V

namespace Interpretation

variable (I : Interpretation V W)

def goesOn (k : Control V) : Bool :=
  if I.numbers.up k.step then I.numbers.le k.index k.limit else I.numbers.le k.limit k.index

def advance (k : Control V) : Control V := { k with index := I.numbers.add k.index k.step }

end Interpretation

namespace NaturalLoop

def machine (I : Interpretation V W) (hidden : List Cell) (turn : Turn V W) (l : NaturalLoop) (p : Proto) :
    Machine (Sight V W) (Option BlockId × Env V W) where
  next
    | (some b, e) =>
      if b ∈ l.body then
        some (.block b :: I.sights hidden (p.body b) e, turn b (I.meaning.runAll (p.body b) e))
      else none
    | (none, _) => none

end NaturalLoop

namespace NumericLoop

def enter (I : Interpretation V W) (n : NumericLoop) (p : Proto) (e : Env V W) : Env V W × Control V :=
  let (start, e) := I.eval n.start (I.meaning.runAll (p.body n.preheader) e)
  let (stop, e) := I.eval n.stop e
  let (step, e) := I.eval n.step e
  (e, ⟨start, stop, step⟩)

def machine (I : Interpretation V W) (hidden : List Cell) (turn : Turn V W) (l : NaturalLoop) (n : NumericLoop)
    (p : Proto) : Machine (Sight V W) (Option BlockId × Env V W × Control V) where
  next
    | (some b, e, k) =>
      if b = l.header then
        some ([.block b],
          if I.goesOn k then (some n.bodyEntry, e.set n.variableCell k.index, k) else (some n.follow, e, k))
      else if b ∈ l.body then
        let (t, e') := turn b (I.meaning.runAll (p.body b) e)
        some (.block b :: I.sights hidden (p.body b) e, t, e', if t = some l.header then I.advance k else k)
      else none
    | (none, _) => none

end NumericLoop

def Env.hold (c : NumericLoop.Counters) (k : Control V) (e : Env V W) : Env V W :=
  ((e.set c.counter k.index).set c.test.limit k.limit).set c.step k.step

structure NaturalLoop.Turns (I : Interpretation V W) (l : NaturalLoop) (p : Proto) (hidden : List Cell)
    (turn : Turn V W) : Prop where
  header : ∀ e, turn l.header e = p.turn I l.header e
  targets : ∀ {b t e}, b ∈ l.body → (turn b e).1 = some t → t ∈ (p.jump b).targets
  set : ∀ {b c}, b ∈ l.body → b ≠ l.header → c ∈ hidden → ∀ e x,
    turn b (e.set c x) = ((turn b e).1, (turn b e).2.set c x)

/-- What a recognized loop has to fulfil besides: no statement that stays writes a hidden cell, and the
body is entered from the header only. -/
structure NumericLoop.Undisturbed (n : NumericLoop) (c : NumericLoop.Counters) (l : NaturalLoop) (p : Proto) :
    Prop where
  writes : ∀ b ∈ l.body, ∀ s ∈ (n.strip p).body b, ∀ x ∈ c.hidden, x ∉ s.writtenCells
  entry : ∀ b ∈ l.body, b ≠ l.header → n.bodyEntry ∉ (p.jump b).targets

structure Interpretation.Counts (I : Interpretation V W) (c : NumericLoop.Counters) (k : Control V) : Prop where
  index : I.numbers.isNumber k.index
  limit : I.numbers.isNumber k.limit
  step : I.numbers.isNumber k.step
  sign : I.numbers.up k.step = (c.test.comparison == .le)

theorem Interpretation.Counts.advance {I : Interpretation V W} {c : NumericLoop.Counters} {k : Control V}
    {hidden : List Cell} (hI : I.Lawful hidden) (h : I.Counts c k) : I.Counts c (I.advance k) :=
  ⟨hI.isNumber_add h.index h.step, h.limit, h.step, h.sign⟩

section Hold

open NumericLoop

variable {slotOf : SlotOf} {p : Proto} {f : Flow} {l : NaturalLoop} {c : Counters} {n : NumericLoop}
  {I : Interpretation V W} {turn : Turn V W}

theorem Env.hold_eq (e : Env V W) (k : Control V) : e.hold c k = e.setAll c.hidden [k.index, k.limit, k.step] := rfl

theorem Env.apart_hold (e : Env V W) (k : Control V) : (e.hold c k).apart c.hidden = e.apart c.hidden := by
  rw [hold_eq, apart_setAll fun _ hx => hx]

theorem Env.set_hold (e : Env V W) (k : Control V) {v : Cell} (hv : v ∉ c.hidden) (x : V) :
    (e.hold c k).set v x = (e.set v x).hold c k := by
  rw [hold_eq, hold_eq, setAll_set hv]

theorem Interpretation.Lawful.runAll_hold (hI : I.Lawful c.hidden) {ss : List Stmt}
    (h : ∀ s ∈ ss, ∀ x ∈ c.hidden, s.mentions x = false) (e : Env V W) (k : Control V) :
    I.meaning.runAll ss (e.hold c k) = (I.meaning.runAll ss e).hold c k := by
  rw [Env.hold_eq, hI.runAll_setAll (fun _ hx => hx) h, Env.hold_eq]

theorem Interpretation.Lawful.sights_hold (hI : I.Lawful c.hidden) {ss : List Stmt}
    (h : ∀ s ∈ ss, ∀ x ∈ c.hidden, s.mentions x = false) (e : Env V W) (k : Control V) :
    I.sights c.hidden ss (e.hold c k) = I.sights c.hidden ss e := by
  rw [Env.hold_eq, hI.sights_setAll (fun _ hx => hx) h]

theorem NaturalLoop.Turns.hold (ht : l.Turns I p c.hidden turn) {b : BlockId} (hb : b ∈ l.body)
    (hne : b ≠ l.header) (e : Env V W) (k : Control V) :
    turn b (e.hold c k) = ((turn b e).1, (turn b e).2.hold c k) := by
  have hset {x : Cell} (hx : x ∈ c.hidden) := ht.set hb hne hx
  rw [Env.hold, hset (by simp [Counters.hidden]), hset (by simp [Counters.hidden]),
    hset (by simp [Counters.hidden]), Env.hold]

end Hold

theorem Interpretation.Lawful.decide_counterTest {I : Interpretation V W} {hidden : List Cell}
    (hI : I.Lawful hidden) {c : Cell} {e : Env V W} : (a : Expr) → {t : CounterTest} →
    a.counterTest? c = some t → t.comparison = .le ∨ t.comparison = .ge →
    I.numbers.isNumber (e.cell c) → I.numbers.isNumber (e.cell t.limit) →
    (I.meaning.decide a e).state = e ∧ (I.meaning.decide a e).holds =
      ((if t.comparison = .le then I.numbers.le (e.cell c) (e.cell t.limit)
        else I.numbers.le (e.cell t.limit) (e.cell c)) != t.negated)
  | .unary .not a, t, h, ht, hc, hl => by
    obtain ⟨u, hu, rfl⟩ := Expr.counterTest?_not h
    obtain ⟨hstate, hholds⟩ := decide_counterTest hI a hu ht hc hl
    rw [Meaning.decide, Verdict.negated_state, Verdict.negated_holds, hholds]
    exact ⟨hstate, by simp⟩
  | .binary op a b, t, h, ht, hc, hl => by
    obtain ⟨x, y, hx, hy, ⟨rfl, rfl⟩ | ⟨rfl, rfl⟩⟩ := Expr.counterTest?_binary h
    · obtain rfl | rfl : op = .le ∨ op = .ge := ht
      · simp [Meaning.decide, Meaning.elementary, hI.le hx hy hc hl]
      · simp [Meaning.decide, Meaning.elementary, hI.ge hx hy hc hl]
    · -- the counter stands on the right, and the comparison is turned round
      obtain rfl | rfl : op = .ge ∨ op = .le := by
        cases op <;> simp [BinaryOp.mirrored] at ht <;> simp
      · simp [Meaning.decide, Meaning.elementary, hI.ge hx hy hl hc, BinaryOp.mirrored]
      · simp [Meaning.decide, Meaning.elementary, hI.le hx hy hl hc, BinaryOp.mirrored]

namespace NumericLoop.Counted

variable {slotOf : SlotOf} {p : Proto} {f : Flow} {l : NaturalLoop} {c : Counters} {n : NumericLoop}
  (h : Counted slotOf p f l c n) {I : Interpretation V W} (hI : I.Lawful c.hidden)
include h hI

theorem runAll_setup (hlatch : n.latch ∈ l.body) (e : Env V W) :
    I.meaning.runAll (n.closing p n.preheader) e =
      (I.evalAll [n.start, n.stop, n.step] e).2.setAll c.hidden (I.evalAll [n.start, n.stop, n.step] e).1 := by
  have hpl : n.preheader ≠ n.latch := fun heq => h.preheader_notMem (heq ▸ hlatch)
  have hread : ∀ s ∈ n.closing p n.preheader, ∀ x ∈ c.hidden, s.readCount x = 0 :=
    fun s hs x hx => h.unread_setup hlatch hx s hs
  have hclosing : n.closing p n.preheader =
      (p.body n.preheader).drop ((p.body n.preheader).length - n.setup) := by
    rw [closing, if_neg hpl, if_pos rfl]
  rcases initializers?_eq_some h.setup with ⟨a, ha, htargets, hvalues⟩ | ⟨hlen, hsingle⟩
  · simp only at ha hvalues
    rw [hclosing, ha, ← hvalues]
    exact hI.assign htargets (by rw [hvalues]; rfl)
  · rw [hclosing] at hread ⊢
    exact (hI.runAll_initializers hsingle hlen hread (fun _ hc => hc) e).1

theorem runAll_preheader (hlatch : n.latch ∈ l.body) (e : Env V W) :
    I.meaning.runAll (p.body n.preheader) e =
      (n.enter I (n.strip p) e).1.hold c (n.enter I (n.strip p) e).2 := by
  have hne : n.preheader ≠ n.bodyEntry := fun heq => h.preheader_notMem (heq ▸ h.bodyEntry_mem)
  rw [h.body_eq hlatch, opening, if_neg hne, List.nil_append, Meaning.runAll_append, h.runAll_setup hI hlatch]
  rfl

omit hI in
theorem cell_hold (e : Env V W) (k : Control V) : (e.hold c k).cell c.counter = k.index ∧
    (e.hold c k).cell c.test.limit = k.limit ∧ (e.hold c k).cell c.step = k.step := by
  simp [Env.hold, Env.cell_set_of_ne h.counter_ne_step, Env.cell_set_of_ne h.counter_ne_limit,
    Env.cell_set_of_ne h.limit_ne_step]

theorem turn_header {k : Control V} (hk : I.Counts c k) (e : Env V W) :
    p.turn I l.header (e.hold c k) = (some (if I.goesOn k then n.bodyEntry else n.follow), e.hold c k) := by
  obtain ⟨stays, t, hexit, ht, htest, rfl⟩ := h.test
  obtain ⟨-, -, t', ht', hjump⟩ := NaturalLoop.exitTest?_eq_some hexit
  obtain rfl : t' = t := Option.some.inj (ht'.symm.trans ht)
  obtain ⟨hindex, hlimit, -⟩ := h.cell_hold e k
  obtain ⟨hstate, hholds⟩ := hI.decide_counterTest t' htest h.comparison
    (by rw [hindex]; exact hk.index) (by rw [hlimit]; exact hk.limit)
  have hgoes : I.goesOn k = if c.test.comparison = .le then I.numbers.le k.index k.limit
      else I.numbers.le k.limit k.index := by
    simp [Interpretation.goesOn, hk.sign]
  rw [hindex, hlimit, ← hgoes] at hholds
  rw [Proto.turn, hjump]
  cases hneg : c.test.negated <;> simp [hneg, Jump.follow, hstate, hholds, -ite_not]
  cases I.goesOn k <;> rfl

theorem runAll_opening {e e' : Env V W} {k : Control V} {b : BlockId}
    (he : (if b = n.bodyEntry then e.set n.variableCell k.index else e) = e'.hold c k) :
    I.meaning.runAll (n.opening p b) e = e'.hold c k := by
  rw [opening]
  by_cases hb : b = n.bodyEntry
  · subst hb
    obtain ⟨s, a, hs, ha, hread⟩ := h.opening_bodyEntry
    rw [opening, if_pos rfl] at hs
    have hv := h.variable_notMem
    simp only [Counters.hidden, List.mem_cons, List.not_mem_nil, or_false, not_or] at hv
    have hindex : e.cell c.counter = k.index := by
      have := (h.cell_hold e' k).1
      rwa [← he, if_pos rfl, Env.cell_set_of_ne (Ne.symm hv.1)] at this
    rw [if_pos rfl] at he ⊢
    rw [hs, ← he]
    simp [Meaning.runAll, hI.run_single ha, hI.read hread, hindex]
  · rw [if_neg hb] at he ⊢
    exact he

theorem runAll_closing {k : Control V} (hk : I.Counts c k) (e : Env V W) {b : BlockId}
    (hb : b ∈ l.body) : I.meaning.runAll (n.closing p b) (e.hold c k) =
      e.hold c (if b = n.latch then I.advance k else k) := by
  have hbp : b ≠ n.preheader := fun heq => h.preheader_notMem (heq ▸ hb)
  rw [closing]
  by_cases hbl : b = n.latch
  · subst hbl
    obtain ⟨s, a, hs, ha, hstep⟩ := h.closing_latch
    obtain ⟨x, y, rfl, hx, hy⟩ := Expr.stepOf?_eq_some hstep
    rw [closing, if_pos rfl] at hs
    obtain ⟨hindex, -, hstep⟩ := h.cell_hold e k
    rw [if_pos rfl, if_pos rfl, hs]
    have hadd := hI.add (e := e.hold c k) hx hy (by rw [hindex]; exact hk.index) (by rw [hstep]; exact hk.step)
    simp only [Meaning.runAll, List.foldl_cons, List.foldl_nil, hI.run_single ha, hadd, hindex, hstep]
    rw [Env.hold, Env.set_comm (Ne.symm h.counter_ne_step), Env.set_comm (Ne.symm h.counter_ne_limit), Env.set_set]
    rfl
  · rw [if_neg hbl, if_neg hbp, if_neg hbl]
    rfl

omit hI in
theorem not_mentions (hlatch : n.latch ∈ l.body) (hn : n.Undisturbed c l p) {b : BlockId} (hb : b ∈ l.body)
    (hne : b ≠ l.header) : ∀ s ∈ (n.strip p).body b, ∀ x ∈ c.hidden, s.mentions x = false :=
  fun s hs x hx => Stmt.not_mentions.2 ⟨(h.unread hlatch hx hne).1 s hs, hn.writes b hb s hs x hx⟩

omit hI in
theorem mentions_idiom {b : BlockId} (hb : b ∈ l.body) : (∀ s ∈ n.opening p b, ∃ x ∈ c.hidden, s.mentions x = true) ∧
    ∀ s ∈ n.closing p b, ∃ x ∈ c.hidden, s.mentions x = true := by
  have hcounter : c.counter ∈ c.hidden := by simp [Counters.hidden]
  have hbp : b ≠ n.preheader := fun heq => h.preheader_notMem (heq ▸ hb)
  refine ⟨fun s hs => ⟨_, hcounter, ?_⟩, fun s hs => ⟨_, hcounter, ?_⟩⟩
  · by_cases hbe : b = n.bodyEntry
    · subst hbe
      obtain ⟨t, a, ht, ha, hread⟩ := h.opening_bodyEntry
      rw [ht, List.mem_singleton] at hs
      subst hs
      simp [Stmt.mentions, Stmt.readCount_of_singleCell? ha, Expr.count_of_cell? hread]
    · simp [opening, hbe] at hs
  · by_cases hbl : b = n.latch
    · subst hbl
      obtain ⟨t, a, ht, ha, hstep⟩ := h.closing_latch
      obtain ⟨x, y, rfl, hx, -⟩ := Expr.stepOf?_eq_some hstep
      rw [ht, List.mem_singleton] at hs
      subst hs
      have hcount : 0 < s.readCount c.counter := by
        rw [Stmt.readCount_of_singleCell? ha, Expr.count_binary, Expr.count_of_cell? hx]
        omega
      simp [Stmt.mentions, hcount]
    · simp [closing, hbl, hbp] at hs

end NumericLoop.Counted

namespace NumericLoop

/-- Both machines stand at the same block. Inside the loop the hidden cells hold what the `for` keeps
aside; its variable is set already where the body is entered, and copied yet to be there. -/
inductive InStep (I : Interpretation V W) (c : Counters) (l : NaturalLoop) (n : NumericLoop) :
    Option BlockId × Env V W → Option BlockId × Env V W × Control V → Prop
  | inside {b : BlockId} {e e' : Env V W} {k : Control V} (hb : b ∈ l.body) (hk : I.Counts c k)
      (he : (if b = n.bodyEntry then e.set n.variableCell k.index else e) = e'.hold c k) :
      InStep I c l n (some b, e) (some b, e', k)
  | outside {t : Option BlockId} {e e' : Env V W} {k : Control V} (ht : ∀ b ∈ t, b ∉ l.body)
      (he : e.apart c.hidden = e'.apart c.hidden) : InStep I c l n (t, e) (t, e', k)

variable {slotOf : SlotOf} {p : Proto} {f : Flow} {l : NaturalLoop} {c : Counters} {n : NumericLoop}
  {I : Interpretation V W} {turn : Turn V W}

section Simulation

variable (h : Counted slotOf p f l c n) (hf : f.Rooted) (hl : f.IsLoop l)
  (hsucc : ∀ b, f.successors b = (p.jump b).targets) (hn : n.Undisturbed c l p) (hI : I.Lawful c.hidden)
  (hturn : l.Turns I p c.hidden turn)
include h hf hl

theorem Counted.latch_mem : n.latch ∈ l.body :=
  hl.latch_mem hf (hl.mem_latches.1 (by simp [h.latches]))

include hsucc hn hI hturn in
theorem Counted.inStep_turn {b : BlockId} (hb : b ∈ l.body) (hne : b ≠ l.header) {k : Control V}
    (hk : I.Counts c k) (e : Env V W) :
    InStep I c l n (turn b (e.hold c (if b = n.latch then I.advance k else k)))
      ((turn b e).1, (turn b e).2, if (turn b e).1 = some l.header then I.advance k else k) := by
  rw [hturn.hold hb hne]
  cases ht : (turn b e).1 with
  | none => exact .outside (by simp) (Env.apart_hold _ _)
  | some t =>
    have htarget := hturn.targets hb ht
    by_cases hin : t ∈ l.body
    · have hte : t ≠ n.bodyEntry := fun heq => hn.entry b hb hne (heq ▸ htarget)
      have hiff : b = n.latch ↔ some t = some l.header := by
        rw [Option.some.injEq]
        constructor
        · rintro rfl
          rw [h.again] at htarget
          exact List.mem_singleton.1 htarget
        · rintro rfl
          exact (hl.header_mem_targets hf hsucc h.latches h.again hb).1 htarget
      simp only [hiff]
      refine .inside hin ?_ (if_neg hte)
      split
      · exact hk.advance hI
      · exact hk
    · exact .outside (by simpa using hin) (Env.apart_hold _ _)

include hsucc hn hI hturn in
theorem Counted.matches (g : Option BlockId × Env V W) (d : Option BlockId × Env V W × Control V)
    (hgd : InStep I c l n g d) :
    Matches (l.machine I c.hidden turn p) (n.machine I c.hidden turn l (n.strip p))
      (fun g => (g.1, g.2.apart c.hidden)) (fun d => (d.1, d.2.1.apart c.hidden)) (InStep I c l n) g d := by
  have hheader := hl.header_mem hf
  cases hgd with
  | @outside t e e' k ht he =>
    refine ⟨[], (t, e), (t, e', k), 0, 0, .refl _, .refl _, .inl ⟨?_, ?_, by simp [he]⟩⟩
    · cases t with
      | none => rfl
      | some b => exact if_neg (ht b rfl)
    · cases t with
      | none => rfl
      | some b =>
        have hbh : b ≠ l.header := fun heq => ht b rfl (heq ▸ hheader)
        simp [NumericLoop.machine, hbh, ht b rfl]
  | @inside b e e' k hb hk he =>
    -- At the header the `for` decides by its own numbers; in the body the idiom's statements are the only others.
    by_cases hbh : b = l.header
    · subst hbh
      rw [if_neg (Ne.symm h.bodyEntry_ne_header)] at he
      subst he
      have hleft : (l.machine I c.hidden turn p).next (some l.header, e'.hold c k) =
          some ([.block l.header], some (if I.goesOn k then n.bodyEntry else n.follow), e'.hold c k) := by
        simp [NaturalLoop.machine, hheader, h.header, Interpretation.sights, hturn.header, h.turn_header hI hk]
      refine ⟨_, _, _, 1, 1, .one hleft, .one (if_pos rfl), .inr ⟨Nat.one_pos, Nat.one_pos, ?_⟩⟩
      cases I.goesOn k with
      | true => exact .inside h.bodyEntry_mem hk (by simp [Env.set_hold _ _ h.variable_notMem])
      | false => exact .outside (by simpa using h.follow_notMem) (Env.apart_hold _ _)
    · have hquiet := h.not_mentions (h.latch_mem hf hl) hn hb hbh
      obtain ⟨hopening, hclosing⟩ := h.mentions_idiom hb
      have hbody := h.body_eq (h.latch_mem hf hl) b
      have hrun : I.meaning.runAll (p.body b) e =
          (I.meaning.runAll ((n.strip p).body b) e').hold c (if b = n.latch then I.advance k else k) := by
        rw [hbody, Meaning.runAll_append, Meaning.runAll_append, h.runAll_opening hI he, hI.runAll_hold hquiet,
          h.runAll_closing hI hk _ hb]
      have hsights : I.sights c.hidden (p.body b) e = I.sights c.hidden ((n.strip p).body b) e' := by
        rw [hbody, Interpretation.sights_append, Interpretation.sights_append, I.sights_eq_nil _ hopening,
          I.sights_eq_nil _ hclosing, List.nil_append, List.append_nil, h.runAll_opening hI he,
          hI.sights_hold hquiet]
      have hleft : (l.machine I c.hidden turn p).next (some b, e) = some (.block b ::
          I.sights c.hidden ((n.strip p).body b) e', turn b (I.meaning.runAll (p.body b) e)) := by
        rw [← hsights]
        exact if_pos hb
      refine ⟨_, _, _, 1, 1, .one hleft, .one ((if_neg hbh).trans (if_pos hb)), .inr ⟨Nat.one_pos, Nat.one_pos, ?_⟩⟩
      rw [hrun]
      exact h.inStep_turn hf hl hsucc hn hI hturn hb hbh hk _

include hsucc hn hI hturn in
/-- A loop that counts with numbers in the direction of its test runs like the `for`: the same blocks in
the same order, each statement that stays in the same surroundings, and the same way out. -/
theorem Counted.sameRuns (e : Env V W) (hk : I.Counts c (n.enter I (n.strip p) e).2) :
    SameRuns (l.machine I c.hidden turn p) (n.machine I c.hidden turn l (n.strip p))
      (fun g => (g.1, g.2.apart c.hidden)) (fun d => (d.1, d.2.1.apart c.hidden))
      (some l.header, I.meaning.runAll (p.body n.preheader) e) (some l.header, n.enter I (n.strip p) e) := by
  refine .of_matches (h.matches hf hl hsucc hn hI hturn) (.inside (hl.header_mem hf) hk ?_)
  rw [if_neg (Ne.symm h.bodyEntry_ne_header)]
  exact h.runAll_preheader hI (h.latch_mem hf hl) e

include hI in
theorem Counted.turns_jumps : l.Turns I p c.hidden (p.turn I) where
  header _ := rfl
  targets _ ht := Jump.follow_target ht
  set {b x} hb hne hx e y := by
    have hunread := (h.unread (h.latch_mem hf hl) hx hne).2
    have hhidden : ∀ d ∈ [x], d ∈ c.hidden := by simpa using hx
    refine hI.turn_setAll hhidden (fun t ht d hd => ?_) e [y]
    rw [List.mem_singleton.1 hd]
    exact hunread t ht

end Simulation

theorem turn_strip (I : Interpretation V W) (n : NumericLoop) (p : Proto) : (n.strip p).turn I = p.turn I := by
  funext b e
  rw [Proto.turn, jump_strip, Proto.turn]

theorem sameRuns_of_recognize (hp : p.WellShaped) (hl : l ∈ (Flow.of p).loops (Flow.of p).dominance)
    (hc : counters? slotOf p l = some c) (h : recognize slotOf true p (.of p) l = .full n)
    (hn : n.Undisturbed c l p) (hI : I.Lawful c.hidden) (e : Env V W)
    (hk : I.Counts c (n.enter I (n.strip p) e).2) :
    SameRuns (l.machine I c.hidden (p.turn I) p) (n.machine I c.hidden ((n.strip p).turn I) l (n.strip p))
      (fun g => (g.1, g.2.apart c.hidden)) (fun d => (d.1, d.2.1.apart c.hidden))
      (some l.header, I.meaning.runAll (p.body n.preheader) e) (some l.header, n.enter I (n.strip p) e) := by
  obtain ⟨c', hc', hcounted⟩ := counted_of_recognize h
  obtain rfl : c' = c := Option.some.inj (hc'.symm.trans hc)
  have hf : (Flow.of p).Rooted := hp.rooted
  have hloop := Flow.isLoop_of_mem hl
  rw [turn_strip]
  exact hcounted.sameRuns hf hloop hp.successors hn hI (hcounted.turns_jumps hf hloop hI) e hk

def counting : Proto :=
  { id := 0, parameters := 3
    blocks := [
      ⟨0, 0, 0, [.store (.slot 3) (.slot 0), .store (.slot 4) (.slot 1), .store (.slot 5) (.slot 2)], .always 1⟩,
      ⟨1, 0, 0, [], .branch (.binary .le (.slot 3) (.slot 4)) 2 3⟩,
      ⟨2, 0, 0, [.store (.slot 6) (.slot 3), .call (.global "f") [.slot 6] 0,
        .store (.slot 3) (.binary .add (.slot 3) (.slot 5))], .always 1⟩,
      ⟨3, 0, 0, [.ret [] 0], .leave⟩] }

theorem sameRuns_of_recognize_counting (e : Env Int Nat) (he : 0 ≤ e.cell ⟨.slot, 2⟩) : ∃ n c,
    recognize slotOfSlot true counting (.of counting) ⟨1, [2], [1, 2]⟩ = .full n ∧
    SameRuns (NaturalLoop.machine .integers (Counters.hidden c) (counting.turn .integers) ⟨1, [2], [1, 2]⟩ counting)
      (machine .integers c.hidden ((n.strip counting).turn .integers) ⟨1, [2], [1, 2]⟩ n (n.strip counting))
      (fun g => (g.1, g.2.apart c.hidden)) (fun d => (d.1, d.2.1.apart c.hidden))
      (some 1, Interpretation.integers.meaning.runAll (counting.body 0) e)
      (some 1, n.enter .integers (n.strip counting) e) := by
  let c : Counters := ⟨2, ⟨.slot, 3⟩, ⟨.slot, 5⟩, ⟨⟨.slot, 4⟩, .le, false⟩⟩
  let n : NumericLoop := ⟨2, 0, 3, 2, 3, ⟨.slot, 6⟩, .slot 0, .slot 1, .slot 2⟩
  have hl : (Flow.of counting).loops (Flow.of counting).dominance = [⟨1, [2], [1, 2]⟩] := by cbv
  have hn : recognize slotOfSlot true counting (.of counting) ⟨1, [2], [1, 2]⟩ = .full n := by cbv
  have hc : counters? slotOfSlot counting ⟨1, [2], [1, 2]⟩ = some c := by cbv
  have hundisturbed : n.Undisturbed c ⟨1, [2], [1, 2]⟩ counting := by
    have hheader : (n.strip counting).body 1 = [] := rfl
    have hbody : (n.strip counting).body 2 = [.call (.global "f") [.slot 6] 0] := rfl
    constructor
    · intro b hb
      obtain rfl | rfl : b = 1 ∨ b = 2 := by simpa using hb
      · simp [hheader]
      · simp [hbody, Stmt.writtenCells]
    · intro b hb hne
      obtain rfl | rfl : b = 1 ∨ b = 2 := by simpa using hb
      · exact absurd rfl hne
      · have hjump : counting.jump 2 = .always 1 := rfl
        simp [hjump, Jump.targets, n]
  refine ⟨n, c, hn, sameRuns_of_recognize (Proto.wellShaped_of_violation (by cbv)) (by simp [hl]) hc hn hundisturbed
    (Interpretation.integers_lawful _) e ⟨trivial, trivial, trivial, ?_⟩⟩
  exact decide_eq_true he

def skipping : Proto :=
  { id := 0, parameters := 3
    blocks := [
      ⟨0, 0, 0, [.store (.slot 3) (.slot 0), .store (.slot 4) (.slot 1), .store (.slot 5) (.slot 2)], .always 1⟩,
      ⟨1, 0, 0, [], .branch (.binary .le (.slot 3) (.slot 4)) 2 5⟩,
      ⟨2, 0, 0, [.store (.slot 6) (.slot 3), .call (.global "f") [.slot 6] 0], .branch (.global "stop") 3 4⟩,
      ⟨3, 0, 0, [.store (.slot 3) (.slot 1)], .always 4⟩,
      ⟨4, 0, 0, [.store (.slot 3) (.binary .add (.slot 3) (.slot 5))], .always 1⟩,
      ⟨5, 0, 0, [.ret [] 0], .leave⟩] }

/-- Reads of the hidden cells are counted, writes are not: a loop that sets its counter is recognized. -/
example : ∃ n c, recognize slotOfSlot true skipping (.of skipping) ⟨1, [4], [1, 2, 3, 4]⟩ = .full n ∧
    counters? slotOfSlot skipping ⟨1, [4], [1, 2, 3, 4]⟩ = some c ∧
    ¬ n.Undisturbed c ⟨1, [4], [1, 2, 3, 4]⟩ skipping := by
  let c : Counters := ⟨4, ⟨.slot, 3⟩, ⟨.slot, 5⟩, ⟨⟨.slot, 4⟩, .le, false⟩⟩
  let n : NumericLoop := ⟨4, 0, 3, 2, 5, ⟨.slot, 6⟩, .slot 0, .slot 1, .slot 2⟩
  refine ⟨n, c, by cbv, by cbv, fun h => ?_⟩
  exact h.writes 3 (by simp) (.store (.slot 3) (.slot 1)) (.head _) c.counter (.head _) (.head _)

end NumericLoop

end LuaLift
