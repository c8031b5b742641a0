import LuaLift.Loops.Idiom
import LuaLift.Proofs.Env
import LuaLift.Proofs.Data.Total
import LuaLift.Proofs.Meaning
import LuaLift.Proofs.Syntax.Cells

namespace LuaLift

structure Numbers (V : Type) where
  isNumber : V → Prop
  add : V → V → V
  le : V → V → Bool
  up : V → Bool

structure Interpretation (V W : Type) where
  meaning : Meaning (Env V W)
  eval : Expr → Env V W → V × Env V W
  numbers : Numbers V

variable {V W : Type}

namespace Stmt

def writtenCells : Stmt → List Cell
  | assign a => a.targets.filterMap Expr.cell?
  | declare vs => vs.map (⟨.var, ·⟩)
  | _ => []

def readCount (c : Cell) (s : Stmt) : Nat := total (·.count c) s.operands

def mentions (c : Cell) (s : Stmt) : Bool := 0 < s.readCount c || s.writtenCells.contains c

theorem not_mentions {c : Cell} {s : Stmt} :
    s.mentions c = false ↔ s.readCount c = 0 ∧ c ∉ s.writtenCells := by
  simp [mentions]

end Stmt

namespace Interpretation

variable (I : Interpretation V W)

def evalAll : List Expr → Env V W → List V × Env V W
  | [], e => ([], e)
  | a :: as, e =>
    let (x, e) := I.eval a e
    let (xs, e) := evalAll as e
    (x :: xs, e)

/-- Cells are read and assigned, and numbers in cells are added and compared, without further effect. Code
that does not mention one of the hidden cells goes on past it. -/
structure Lawful (hidden : List Cell) : Prop where
  assign : ∀ {a : Assignment} {cs : List Cell} {e : Env V W}, a.targets.map Expr.cell? = cs.map some →
    a.values.length = cs.length →
    I.meaning.run (.assign a) e = (I.evalAll a.values e).2.setAll cs (I.evalAll a.values e).1
  read : ∀ {a : Expr} {c : Cell} {e : Env V W}, a.cell? = some c → I.eval a e = (e.cell c, e)
  add : ∀ {a b : Expr} {c d : Cell} {e : Env V W}, a.cell? = some c → b.cell? = some d →
    I.numbers.isNumber (e.cell c) → I.numbers.isNumber (e.cell d) →
    I.eval (.binary .add a b) e = (I.numbers.add (e.cell c) (e.cell d), e)
  isNumber_add : ∀ {x y : V}, I.numbers.isNumber x → I.numbers.isNumber y →
    I.numbers.isNumber (I.numbers.add x y)
  le : ∀ {a b : Expr} {c d : Cell} {e : Env V W}, a.cell? = some c → b.cell? = some d →
    I.numbers.isNumber (e.cell c) → I.numbers.isNumber (e.cell d) →
    I.meaning.test (.binary .le a b) e = (I.numbers.le (e.cell c) (e.cell d), e)
  ge : ∀ {a b : Expr} {c d : Cell} {e : Env V W}, a.cell? = some c → b.cell? = some d →
    I.numbers.isNumber (e.cell c) → I.numbers.isNumber (e.cell d) →
    I.meaning.test (.binary .ge a b) e = (I.numbers.le (e.cell d) (e.cell c), e)
  run_set : ∀ {s : Stmt} {c : Cell}, c ∈ hidden → s.mentions c = false → ∀ (e : Env V W) (x : V),
    I.meaning.run s (e.set c x) = (I.meaning.run s e).set c x
  eval_set : ∀ {a : Expr} {c : Cell}, c ∈ hidden → a.count c = 0 → ∀ (e : Env V W) (x : V),
    I.eval a (e.set c x) = ((I.eval a e).1, (I.eval a e).2.set c x)
  test_set : ∀ {a : Expr} {c : Cell}, c ∈ hidden → a.count c = 0 → ∀ (e : Env V W) (x : V),
    I.meaning.test a (e.set c x) = ((I.meaning.test a e).1, (I.meaning.test a e).2.set c x)

end Interpretation

theorem Expr.count_of_cell? {e : Expr} {c : Cell} (h : e.cell? = some c) : e.count c = 1 := by
  rw [ofCell_of_cell? h, count, reads, nodes_ofCell]
  obtain ⟨_ | _, i⟩ := c <;> simp [ofCell, cellOf?, cell?]

theorem Expr.count_binary (c : Cell) (op : BinaryOp) (a b : Expr) :
    (binary op a b).count c = a.count c + b.count c := by
  have hreads : (binary op a b).reads c.kind = a.reads c.kind ++ b.reads c.kind := List.filterMap_append
  simp [count, hreads]

theorem Expr.count_call_pair (c : Cell) (f a b : Expr) :
    (call f [a, b]).count c = f.count c + a.count c + b.count c := by
  have hreads : (call f [a, b]).reads c.kind = f.reads c.kind ++ (a.reads c.kind ++ b.reads c.kind) := by
    have hself : cellOf? c.kind (call f [a, b]) = none := rfl
    simp [reads, nodes, nodesList, hself]
  simp [count, hreads, Nat.add_assoc]

namespace Interpretation.Lawful

variable {I : Interpretation V W} {hidden : List Cell} (hI : I.Lawful hidden) {c : Cell} (hc : c ∈ hidden)
include hI hc

theorem runAll_set {l : List Stmt} (hl : ∀ s ∈ l, s.mentions c = false) (e : Env V W) (x : V) :
    I.meaning.runAll l (e.set c x) = (I.meaning.runAll l e).set c x := by
  induction l generalizing e with
  | nil => rfl
  | cons s l ih =>
    simp only [Meaning.runAll, List.foldl_cons] at ih ⊢
    rw [hI.run_set hc (hl s (.head _)), ih fun t ht => hl t (.tail _ ht)]

theorem elementary_set {a : Expr} (ha : a.count c = 0) (e : Env V W) (x : V) :
    I.meaning.elementary a (e.set c x) =
      { I.meaning.elementary a e with state := (I.meaning.elementary a e).state.set c x } := by
  simp [Meaning.elementary, hI.test_set hc ha]

theorem decide_set {a : Expr} (ha : a.count c = 0) (e : Env V W) (x : V) :
    I.meaning.decide a (e.set c x) =
      { I.meaning.decide a e with state := (I.meaning.decide a e).state.set c x } := by
  fun_induction Meaning.decide I.meaning a e with
  | case1 k => rfl
  | case2 a e ih => simp [Meaning.decide, ih ha, Verdict.negated]
  | case3 a b e =>
    have hab : (Expr.binary .eq a b).count c = 0 := ha
    simp [Meaning.decide, hI.elementary_set hc hab, Verdict.negated]
  | case4 a b e h ih ih' =>
    rw [Expr.count_binary, Nat.add_eq_zero_iff] at ha
    simp [Meaning.decide, ih ha.1, ih' ha.2, h, Verdict.behind]
  | case5 a b e h ih =>
    rw [Expr.count_binary, Nat.add_eq_zero_iff] at ha
    simp [Meaning.decide, ih ha.1, h]
  | case6 a b e h ih =>
    rw [Expr.count_binary, Nat.add_eq_zero_iff] at ha
    simp [Meaning.decide, ih ha.1, h]
  | case7 a b e h ih ih' =>
    rw [Expr.count_binary, Nat.add_eq_zero_iff] at ha
    simp [Meaning.decide, ih ha.1, ih' ha.2, h, Verdict.behind]
  | case8 a e h₁ h₂ h₃ h₄ h₅ =>
    rw [Meaning.decide] <;> try assumption
    exact hI.elementary_set hc ha e x

end Interpretation.Lawful

/-! The laws are met by integers in a world that counts the calls. A constant is one, and nil is zero, as is
every variable without a value. A call of two arguments gives the number behind the second one as long as
that does not pass the first. -/

namespace Expr

def numberBehind (stop x : Int) : Int := if x < stop then x + 1 else 0

def integer (cell : Cell → Int) : Expr → Int
  | slot s => cell ⟨.slot, s⟩
  | var v => cell ⟨.var, v⟩
  | constant .nil => 0
  | constant _ => 1
  | binary .add a b => a.integer cell + b.integer cell
  | call _ [a, b] => numberBehind (a.integer cell) (b.integer cell)
  | _ => 0

def integers (cell : Cell → Int) (n : Nat) (as : List Expr) : List Int :=
  (as.map (integer cell) ++ List.replicate n 0).take n

theorem integers_length (cell : Cell → Int) (as : List Expr) :
    integers cell as.length as = as.map (integer cell) := by
  rw [integers, ← List.length_map (integer cell), List.take_left]

theorem integer_of_cell? {a : Expr} {c : Cell} (h : a.cell? = some c) (cell : Cell → Int) :
    a.integer cell = cell c := by
  rw [ofCell_of_cell? h]
  obtain ⟨_ | _, i⟩ := c <;> rfl

theorem integer_set {c : Cell} (x : Int) (e : Env Int W) : (a : Expr) → a.count c = 0 →
    a.integer (e.set c x).cell = a.integer e.cell
  | slot s, h | var s, h => by
    refine Env.cell_set_of_ne ?_
    rintro rfl
    rw [count_of_cell? rfl] at h
    cases h
  | binary op a b, h => by
    rw [count_binary, Nat.add_eq_zero_iff] at h
    cases op with
    | add => rw [integer, integer, integer_set x e a h.1, integer_set x e b h.2]
    | _ => rfl
  | call f [a, b], h => by
    rw [count_call_pair, Nat.add_eq_zero_iff, Nat.add_eq_zero_iff] at h
    rw [integer, integer, integer_set x e a h.1.2, integer_set x e b h.2]
  | call _ [], _ | call _ [_], _ | call _ (_ :: _ :: _ :: _), _ => by rw [integer, integer] <;> simp
  | constant k, _ => by cases k <;> rfl
  | upvalue _, _ | global _, _ | vararg, _ | index _ _, _ | unary _ _, _ | closure _ _, _ | table _ _, _ => rfl

end Expr

namespace Interpretation

def integers : Interpretation Int Nat where
  meaning :=
    { run := fun s e =>
        match s with
        | .assign a =>
          let cells := a.targets.filterMap Expr.cell?
          e.setAll cells (Expr.integers e.cell cells.length a.values)
        | .call .. => { e with world := e.world + 1 }
        | _ => e
      test := fun a e =>
        match a with
        | .binary .le a b => (decide (a.integer e.cell ≤ b.integer e.cell), e)
        | .binary .ge a b => (decide (b.integer e.cell ≤ a.integer e.cell), e)
        | .binary .eq a b => (decide (a.integer e.cell = b.integer e.cell), e)
        | _ => (false, e) }
  eval a e := (a.integer e.cell, e)
  numbers := ⟨fun _ => True, (· + ·), fun x y => decide (x ≤ y), fun x => decide (0 ≤ x)⟩

theorem evalAll_integers (as : List Expr) (e : Env Int Nat) :
    integers.evalAll as e = (as.map (Expr.integer e.cell), e) := by
  induction as with
  | nil => rfl
  | cons a as ih =>
    have heval : integers.eval a e = (a.integer e.cell, e) := rfl
    simp [evalAll, heval, ih]

theorem run_assign_integers {a : Assignment} {cs : List Cell} (h : a.targets.map Expr.cell? = cs.map some)
    (e : Env Int Nat) : integers.meaning.run (.assign a) e = e.setAll cs (Expr.integers e.cell cs.length a.values) := by
  have hcells : a.targets.filterMap Expr.cell? = cs := by
    have := congrArg (List.filterMap id) h
    simpa [List.filterMap_map] using this
  rw [← hcells]
  rfl

theorem integers_lawful (hidden : List Cell) : integers.Lawful hidden where
  assign ht hv := by rw [run_assign_integers ht, evalAll_integers, ← hv, Expr.integers_length]
  read h := by simp [integers, Expr.integer_of_cell? h]
  add ha hb _ _ := by simp [integers, Expr.integer, Expr.integer_of_cell? ha, Expr.integer_of_cell? hb]
  isNumber_add _ _ := trivial
  le ha hb _ _ := by simp [integers, Expr.integer_of_cell? ha, Expr.integer_of_cell? hb]
  ge ha hb _ _ := by simp [integers, Expr.integer_of_cell? ha, Expr.integer_of_cell? hb]
  run_set {s c} _ hs e x := by
    obtain ⟨hread, hwritten⟩ := Stmt.not_mentions.1 hs
    cases s with
    | assign a =>
      have hvalues : a.values.map (Expr.integer (e.set c x).cell) = a.values.map (Expr.integer e.cell) := by
        refine List.map_congr_left fun v hv => Expr.integer_set x e v ?_
        have hle : v.count c ≤ (Stmt.assign a).readCount c :=
          le_total_of_mem (f := (·.count c)) (List.mem_append_right _ hv)
        omega
      simp only [integers, Expr.integers, hvalues]
      exact Env.setAll_set hwritten e _
    | _ => rfl
  eval_set _ ha e x := by simp [integers, Expr.integer_set x e _ ha]
  test_set {a c} _ ha e x := by
    have hset (b : Expr) (hb : b.count c = 0) : b.integer (e.set c x).cell = b.integer e.cell :=
      Expr.integer_set x e b hb
    cases a with
    | binary op a b =>
      rw [Expr.count_binary, Nat.add_eq_zero_iff] at ha
      cases op <;> simp [integers, hset a ha.1, hset b ha.2]
    | _ => rfl

end Interpretation

end LuaLift
