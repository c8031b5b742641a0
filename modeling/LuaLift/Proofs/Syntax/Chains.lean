import LuaLift.Proofs.Text.Legible
import LuaLift.Syntax.Printer

namespace LuaLift

open Text

namespace Expr

variable (t : Locals) {vs : Set LocalId}

def chars (e : Expr) : List Char := (e.text t).toList

def operand (wrap : Bool) (e : Expr) : List Char := (enclosed wrap (e.text t)).toList

theorem operand_true (e : Expr) : e.operand t true = '(' :: (e.chars t ++ [')']) := by
  simp [operand, enclosed, chars]

theorem operand_false (e : Expr) : e.operand t false = e.chars t := rfl

theorem operand_inj {e : Expr} {w w' : Bool} (h : e.operand t w = e.operand t w') : w = w' := by
  have hlen := congrArg List.length h
  cases w <;> cases w' <;> simp [operand_true, operand_false] at hlen ⊢ <;> omega

theorem texts_eq_map (es : List Expr) : texts t es = es.map (text t) := by
  induction es with
  | nil => simp [texts]
  | cons e es ih => simp [texts, ih]

theorem recordTexts_eq_map (rs : List (Expr × Expr)) :
    recordTexts t rs = rs.map fun r => "[" ++ r.1.text t ++ "] = " ++ r.2.text t := by
  induction rs with
  | nil => simp [recordTexts]
  | cons r rs ih => simp [recordTexts, ih]

def itemChars : Expr ⊕ (Expr × Expr) → List Char
  | .inl e => e.chars t
  | .inr (k, v) => '[' :: (k.chars t ++ ']' :: ' ' :: '=' :: ' ' :: v.chars t)

theorem chars_unary (op : UnaryOp) (e : Expr) :
    (unary op e).chars t = op.text.toList ++ e.operand t e.needsParentheses := by
  simp [chars, operand, text]

theorem chars_binary (op : BinaryOp) (a b : Expr) : (binary op a b).chars t =
    a.operand t (a.needsParentheses || op == .pow && a.isUnary) ++
      ' ' :: (op.text.toList ++ ' ' :: b.operand t b.needsParentheses) := by
  simp [chars, operand, text]

theorem chars_var (v : LocalId) : (var v).chars t = (t.name v).toList := by
  simp [chars, text]

theorem chars_string (s : String) : (constant (.string s)).chars t = (quoted s).toList := by
  simp [chars, text, Constant.text]

theorem chars_table (as : List Expr) (rs : List (Expr × Expr)) : (table as rs).chars t =
    '\x7b' :: listed (itemChars t) '\x7d' (as.map .inl ++ rs.map .inr) := by
  simp [chars, text, texts_eq_map, recordTexts_eq_map, listed, itemChars, Function.comp_def]

theorem text_index_unary (op : UnaryOp) (e k : Expr) :
    (index (unary op e) k).text t = (unary op (index e k)).text t := by
  simp [text, enclosed, needsParentheses, String.append_assoc]

theorem text_call_unary (op : UnaryOp) (f : Expr) (as : List Expr) :
    (call (unary op f) as).text t = (unary op (call f as)).text t := by
  simp [text, enclosed, needsParentheses, String.append_assoc]

inductive Plain (vs : Set LocalId) : Expr → Prop where
  | var {v : LocalId} (hv : v ∈ vs) : Plain vs (var v)
  | string (s : String) : Plain vs (constant (.string s))
  | index {e k : Expr} (hu : e.isUnary = false) (he : Plain vs e) (hk : Plain vs k) : Plain vs (index e k)
  | unary (op : UnaryOp) {e : Expr} (he : Plain vs e) : Plain vs (unary op e)
  | binary (op : BinaryOp) {a b : Expr} (ha : Plain vs a) (hb : Plain vs b) : Plain vs (binary op a b)
  | call {f : Expr} {as : List Expr} (hu : f.isUnary = false) (hf : Plain vs f) (has : ∀ a ∈ as, Plain vs a) :
    Plain vs (call f as)
  | table {as : List Expr} {rs : List (Expr × Expr)} (has : ∀ a ∈ as, Plain vs a) (hks : ∀ r ∈ rs, Plain vs r.1)
    (hvs : ∀ r ∈ rs, Plain vs r.2) : Plain vs (table as rs)

end Expr

inductive Suffix where
  | index (key : Expr)
  | call (arguments : List Expr)

namespace Suffix

def onto (e : Expr) : Suffix → Expr
  | index k => .index e k
  | call as => .call e as

def chars (t : Locals) : Suffix → List Char
  | index k =>
    match k.fieldName? with
    | some s => '.' :: s.toList
    | none => '[' :: (k.chars t ++ [']'])
  | call as => '(' :: listed (Expr.chars t) ')' as

def Plain (vs : Set LocalId) : Suffix → Prop
  | index k => k.Plain vs
  | call as => ∀ a ∈ as, a.Plain vs

theorem chars_onto (t : Locals) (s : Suffix) (e : Expr) :
    (s.onto e).chars t = e.operand t e.needsParentheses ++ s.chars t := by
  cases s with
  | index k =>
    simp only [onto, Expr.chars, Expr.text, Expr.operand, chars, String.toList_append]
    cases k.fieldName? <;> simp
  | call as =>
    have hargs : (as.map fun a => (a.text t).toList) = as.map (Expr.chars t) := rfl
    simp [onto, Expr.chars, Expr.text, Expr.operand, chars, Expr.texts_eq_map, listed, Function.comp_def, hargs]

end Suffix

structure Chain where
  wrapped : Bool
  head : Expr
  suffixes : List Suffix

inductive Expr.Heads : Bool → Expr → Prop where
  | var (v : LocalId) : Heads false (var v)
  | string (s : String) : Heads false (constant (.string s))
  | table (as : List Expr) (rs : List (Expr × Expr)) : Heads false (table as rs)
  | wrapped (e : Expr) : Heads true e

namespace Chain

def expr (c : Chain) : Expr := c.suffixes.foldl Suffix.onto c.head

def chars (t : Locals) (c : Chain) : List Char := c.head.operand t c.wrapped ++ c.suffixes.flatMap (Suffix.chars t)

def push (c : Chain) (s : Suffix) : Chain := { c with suffixes := c.suffixes ++ [s] }

structure Plain (vs : Set LocalId) (c : Chain) : Prop where
  heads : Expr.Heads c.wrapped c.head
  head : c.head.Plain vs
  suffixes : ∀ s ∈ c.suffixes, s.Plain vs

theorem expr_push (c : Chain) (s : Suffix) : (c.push s).expr = s.onto c.expr := by
  simp [expr, push, List.foldl_append]

theorem chars_push (t : Locals) (c : Chain) (s : Suffix) : (c.push s).chars t = c.chars t ++ s.chars t := by
  simp [chars, push]

theorem Plain.push {vs : Set LocalId} {c : Chain} {s : Suffix} (hc : c.Plain vs) (hs : s.Plain vs) :
    (c.push s).Plain vs where
  heads := hc.heads
  head := hc.head
  suffixes := by simpa [Chain.push, or_imp, forall_and] using ⟨hc.suffixes, hs⟩

end Chain

namespace Expr

def chain : Bool → Expr → Chain
  | false, index e k => (chain e.needsParentheses e).push (.index k)
  | false, call f as => (chain f.needsParentheses f).push (.call as)
  | w, e => ⟨w, e, []⟩

theorem expr_chain (w : Bool) (e : Expr) : (chain w e).expr = e := by
  fun_induction chain w e with
  | case1 e k ih => rw [Chain.expr_push, ih, Suffix.onto]
  | case2 f as ih => rw [Chain.expr_push, ih, Suffix.onto]
  | case3 w e => rfl

theorem chars_chain (t : Locals) (w : Bool) (e : Expr) : (chain w e).chars t = e.operand t w := by
  fun_induction chain w e with
  | case1 e k ih => rw [Chain.chars_push, ih, ← Suffix.chars_onto, Suffix.onto, operand_false]
  | case2 f as ih => rw [Chain.chars_push, ih, ← Suffix.chars_onto, Suffix.onto, operand_false]
  | case3 w e => simp [Chain.chars]

def Compact (w : Bool) (e : Expr) : Prop := w = false → e.needsParentheses = false ∧ e.isUnary = false

theorem Compact.of_isUnary {e : Expr} (hu : e.isUnary = false) : Compact e.needsParentheses e := fun h => ⟨h, hu⟩

theorem Plain.chain {vs : Set LocalId} {w : Bool} {e : Expr} (he : e.Plain vs) (hw : Compact w e) :
    (chain w e).Plain vs := by
  induction he generalizing w with
  | var hv => cases w <;> exact ⟨by constructor, .var hv, by simp [Expr.chain]⟩
  | string s => cases w <;> exact ⟨by constructor, .string s, by simp [Expr.chain]⟩
  | table has hks hvs _ _ _ => cases w <;> exact ⟨by constructor, .table has hks hvs, by simp [Expr.chain]⟩
  | index hu he hk ihe _ =>
    cases w with
    | false => exact (ihe (.of_isUnary hu)).push hk
    | true => exact ⟨.wrapped _, .index hu he hk, by simp [Expr.chain]⟩
  | call hu hf has ihf _ =>
    cases w with
    | false => exact (ihf (.of_isUnary hu)).push has
    | true => exact ⟨.wrapped _, .call hu hf has, by simp [Expr.chain]⟩
  | unary op he _ =>
    cases w with
    | false => cases (hw rfl).2
    | true => exact ⟨.wrapped _, .unary op he, by simp [Expr.chain]⟩
  | binary op ha hb _ _ =>
    cases w with
    | false => cases (hw rfl).1
    | true => exact ⟨.wrapped _, .binary op ha hb, by simp [Expr.chain]⟩

end Expr

end LuaLift
