import LuaLift.Proofs.Syntax.Chains
import Mathlib.Data.Set.Function

/-!
What the text of an expression tells. Variables with names of their own and strings, put together by accesses,
operations, calls and tables, can be read off the text, if no unary operation is indexed or called. One that is
looks like the same operation on the access or the call.
-/

namespace LuaLift

open Text

namespace Text

def endsOperand (c : Char) : Bool := c == ' ' || closes c

def begins (c : Char) : Bool := c.isAlpha || c == '_' || c == '"' || c == '\x7b' || c == '(' || c == '-' || c == '#'

theorem endsOperand_of_closes {c : Char} (h : closes c = true) : endsOperand c = true := by
  rw [endsOperand, h, Bool.or_true]

theorem not_inName_of_endsOperand {c : Char} (h : endsOperand c = true) : (!inName c) = true := by
  simp only [endsOperand, closes, Bool.or_eq_true, beq_iff_eq] at h
  obtain rfl | ((rfl | rfl) | rfl) | rfl := h <;> decide

end Text

structure Locals.Names (t : Locals) (vs : Set LocalId) : Prop where
  identifier : ∀ v ∈ vs, isIdentifier (t.name v) = true
  ne_not : ∀ v ∈ vs, t.name v ≠ "not"
  distinct : vs.InjOn t.name

variable {t : Locals} {vs : Set LocalId}

def Expr.HeadLegible (t : Locals) (vs : Set LocalId) (w : Bool) (e : Expr) : Prop :=
  Legible (fun o : Bool × Expr => o.2.operand t o.1) (FirstIs fun c => !inName c)
    (fun o => Heads o.1 o.2 ∧ o.2.Plain vs) (w, e)

def Expr.TextLegible (t : Locals) (vs : Set LocalId) (e : Expr) : Prop :=
  Legible (Expr.chars t) (FirstIs closes) (Expr.Plain vs) e

def Suffix.Legible (t : Locals) (vs : Set LocalId) (s : Suffix) : Prop :=
  Text.Legible (Suffix.chars t) (FirstIs fun c => !inName c) (Suffix.Plain vs) s

namespace Expr

theorem headLegible_var (hn : t.Names vs) {v : LocalId} (hv : v ∈ vs) : HeadLegible t vs false (var v) := by
  rintro ⟨w', e'⟩ r s ⟨hd, hp⟩ hr hs he
  have hname := hn.identifier v hv
  cases hd with
  | var v' =>
    cases hp with
    | var hv' =>
      simp only [operand_false, chars_var] at he
      obtain ⟨heq, hrs⟩ := legible_name hname (hn.identifier v' hv') hr hs he
      exact ⟨congrArg (fun v => (false, var v)) (hn.distinct hv hv' heq), hrs⟩
  | string s' =>
    simp only [operand_false, chars_var, chars_string, toList_quoted] at he
    exact absurd he (name_append_ne_cons hname (by decide) _ _)
  | table as rs =>
    simp only [operand_false, chars_var, chars_table] at he
    exact absurd he (name_append_ne_cons hname (by decide) _ _)
  | wrapped e' =>
    simp only [operand_false, operand_true, chars_var] at he
    exact absurd he (name_append_ne_cons hname (by decide) _ _)

theorem headLegible_string (hn : t.Names vs) (s : String) : HeadLegible t vs false (constant (.string s)) := by
  rintro ⟨w', e'⟩ r r' ⟨hd, hp⟩ - - he
  cases hd with
  | var v' =>
    cases hp with
    | var hv' =>
      simp only [operand_false, chars_string, toList_quoted] at he
      exact absurd he.symm (name_append_ne_cons (hn.identifier v' hv') (by decide) _ _)
  | string s' =>
    simp only [operand_false, chars_string] at he
    obtain ⟨rfl, hrs⟩ := legible_quoted s trivial trivial trivial he
    exact ⟨rfl, hrs⟩
  | table as rs => simp [operand_false, chars_string, toList_quoted, chars_table] at he
  | wrapped e' => simp [operand_false, operand_true, chars_string, toList_quoted] at he

theorem headLegible_wrapped (hn : t.Names vs) {e : Expr} (h : TextLegible t vs e) : HeadLegible t vs true e := by
  rintro ⟨w', e'⟩ r r' ⟨hd, hp⟩ - - he
  simp only [operand_true, List.cons_append, List.append_assoc, List.nil_append] at he
  cases hd with
  | var v' =>
    cases hp with
    | var hv' => exact absurd he.symm (name_append_ne_cons (hn.identifier v' hv') (by decide) _ _)
  | string s' => simp [operand_false, chars_string, toList_quoted] at he
  | table as rs => simp [operand_false, chars_table] at he
  | wrapped e' =>
    simp only [operand_true, List.cons_append, List.append_assoc, List.nil_append, List.cons.injEq, true_and] at he
    obtain ⟨rfl, hrs⟩ := h hp (by simp [closes]) (by simp [closes]) he
    exact ⟨rfl, (List.cons.inj hrs).2⟩

def PlainItem (vs : Set LocalId) : Expr ⊕ (Expr × Expr) → Prop
  | .inl e => e.Plain vs
  | .inr r => r.1.Plain vs ∧ r.2.Plain vs

theorem exists_first_operand {w : Bool} {e : Expr} (h : ∃ c cs, e.chars t = c :: cs ∧ begins c = true) :
    ∃ c cs, e.operand t w = c :: cs ∧ begins c = true := by
  cases w with
  | false => exact h
  | true => exact ⟨_, _, operand_true t e, by decide⟩

theorem exists_first (hn : t.Names vs) {e : Expr} (he : e.Plain vs) :
    ∃ c cs, e.chars t = c :: cs ∧ begins c = true := by
  induction he with
  | @var v hv =>
    obtain ⟨c, cs, hcs, hc, -⟩ := isIdentifier_iff.1 (hn.identifier v hv)
    exact ⟨c, cs, by simp [chars, text, hcs], by simp [begins, hc]⟩
  | string s => exact ⟨_, _, (chars_string t s).trans (toList_quoted s), by decide⟩
  | @index e k _ _ _ ihe _ =>
    obtain ⟨c, cs, hcs, hc⟩ := exists_first_operand (w := e.needsParentheses) ihe
    exact ⟨c, _, by rw [← Suffix.onto, Suffix.chars_onto, hcs, List.cons_append], hc⟩
  | @unary op e _ _ => cases op <;> exact ⟨_, _, chars_unary t _ e, by decide⟩
  | @binary op a b _ _ iha _ =>
    obtain ⟨c, cs, hcs, hc⟩ := exists_first_operand (w := a.needsParentheses || op == .pow && a.isUnary) iha
    exact ⟨c, _, by rw [chars_binary, hcs, List.cons_append], hc⟩
  | @call f as _ _ _ ihf _ =>
    obtain ⟨c, cs, hcs, hc⟩ := exists_first_operand (w := f.needsParentheses) ihf
    exact ⟨c, _, by rw [← Suffix.onto, Suffix.chars_onto, hcs, List.cons_append], hc⟩
  | table _ _ _ _ _ _ => exact ⟨_, _, chars_table t _ _, by decide⟩

theorem ne_of_begins {c d : Char} (hc : begins c = true) (hd : begins d = false) : c ≠ d := by
  rintro rfl
  rw [hc] at hd
  cases hd

theorem legible_element (hn : t.Names vs) {e : Expr} (he : e.Plain vs) (h : TextLegible t vs e) :
    Text.Legible (itemChars t) (FirstIs closes) (PlainItem vs) (.inl e) := by
  rintro (e' | ⟨k', v'⟩) r s hj hr hs heq
  · exact (h hj hr hs heq).imp_left (congrArg _)
  · obtain ⟨c, cs, hcs, hc⟩ := exists_first hn he
    simp only [itemChars, hcs, List.cons_append, List.cons.injEq] at heq
    exact absurd heq.1 (ne_of_begins hc (by decide))

theorem legible_record (hn : t.Names vs) {k v : Expr} (hk : TextLegible t vs k) (hv : TextLegible t vs v) :
    Text.Legible (itemChars t) (FirstIs closes) (PlainItem vs) (.inr (k, v)) := by
  rintro (e' | ⟨k', v'⟩) r s hj hr hs heq
  · obtain ⟨c, cs, hcs, hc⟩ := exists_first hn hj
    simp only [itemChars, hcs, List.cons_append, List.cons.injEq] at heq
    exact absurd heq.1.symm (ne_of_begins hc (by decide))
  · simp only [itemChars, List.cons_append, List.append_assoc, List.cons.injEq, true_and] at heq
    obtain ⟨rfl, hrest⟩ := hk hj.1 (by simp [closes]) (by simp [closes]) heq
    simp only [List.cons.injEq, true_and] at hrest
    obtain ⟨rfl, hrs⟩ := hv hj.2 hr hs hrest
    exact ⟨rfl, hrs⟩

theorem exists_first_item (hn : t.Names vs) {i : Expr ⊕ (Expr × Expr)} (hi : PlainItem vs i) :
    ∃ c cs, itemChars t i = c :: cs ∧ c ≠ '\x7d' := by
  rcases i with e | r
  · obtain ⟨c, cs, hcs, hc⟩ := exists_first hn hi
    exact ⟨c, cs, hcs, ne_of_begins hc (by decide)⟩
  · exact ⟨_, _, rfl, by decide⟩

theorem inl_append_inr_inj {α β : Type} {as as' : List α} {bs bs' : List β}
    (h : as.map Sum.inl ++ bs.map Sum.inr = as'.map Sum.inl ++ bs'.map (Sum.inr : β → α ⊕ β)) :
    as = as' ∧ bs = bs' := by
  have hleft := congrArg (List.filterMap Sum.getLeft?) h
  have hright := congrArg (List.filterMap Sum.getRight?) h
  simp only [List.filterMap_append, List.filterMap_map, Function.comp_def, Sum.getLeft?_inl, Sum.getLeft?_inr,
    Sum.getRight?_inl, Sum.getRight?_inr, List.filterMap_some, List.filterMap_none, List.append_nil,
    List.nil_append] at hleft hright
  exact ⟨hleft, hright⟩

theorem headLegible_table (hn : t.Names vs) {as : List Expr} {rs : List (Expr × Expr)}
    (hp : (table as rs).Plain vs) (has : ∀ a ∈ as, TextLegible t vs a)
    (hrs : ∀ r ∈ rs, TextLegible t vs r.1 ∧ TextLegible t vs r.2) : HeadLegible t vs false (table as rs) := by
  rintro ⟨w', e'⟩ r s ⟨hd, hp'⟩ - - he
  have plain {as : List Expr} {rs : List (Expr × Expr)} (hp : (table as rs).Plain vs) :
      ∀ i ∈ as.map Sum.inl ++ rs.map Sum.inr, PlainItem vs i := by
    cases hp with
    | table has hks hvs =>
      simp only [List.mem_append, List.mem_map]
      rintro _ (⟨a, ha, rfl⟩ | ⟨r, hr, rfl⟩)
      · exact has a ha
      · exact ⟨hks r hr, hvs r hr⟩
  cases hd with
  | var v' =>
    cases hp' with
    | var hv' =>
      simp only [operand_false, chars_table] at he
      exact absurd he.symm (name_append_ne_cons (hn.identifier v' hv') (by decide) _ _)
  | string s' => simp [operand_false, chars_string, toList_quoted, chars_table] at he
  | table as' rs' =>
    simp only [operand_false, chars_table, List.cons_append, List.cons.injEq, true_and] at he
    have hitems : ∀ i ∈ as.map Sum.inl ++ rs.map Sum.inr,
        Text.Legible (itemChars t) (FirstIs closes) (PlainItem vs) i := by
      simp only [List.mem_append, List.mem_map]
      rintro _ (⟨a, ha, rfl⟩ | ⟨r, hr, rfl⟩)
      · exact legible_element hn (plain hp (.inl a) (by simpa using ha)) (has a ha)
      · exact legible_record hn (hrs r hr).1 (hrs r hr).2
    obtain ⟨hlists, hrest⟩ := legible_listed (by decide) (by decide) (fun i => exists_first_item hn) (plain hp)
      hitems (plain hp') trivial trivial he
    obtain ⟨rfl, rfl⟩ := inl_append_inr_inj hlists
    exact ⟨rfl, hrest⟩
  | wrapped e' => simp [operand_false, operand_true, chars_table] at he

end Expr

namespace Suffix

theorem exists_first (s : Suffix) :
    ∃ c cs, s.chars t = c :: cs ∧ endsOperand c = false ∧ inName c = false := by
  cases s with
  | index k =>
    rw [chars]
    cases k.fieldName? with
    | none => exact ⟨_, _, rfl, by decide⟩
    | some n => exact ⟨_, _, rfl, by decide⟩
  | call as => exact ⟨_, _, rfl, by decide⟩

theorem fieldName?_eq_some {k : Expr} {n : String} (h : k.fieldName? = some n) :
    k = .constant (.string n) ∧ isIdentifier n = true := by
  unfold Expr.fieldName? at h
  split at h
  · split at h
    · cases h
      exact ⟨rfl, by assumption⟩
    · cases h
  · cases h

theorem legible_index {k : Expr} (h : k.TextLegible t vs) : (index k).Legible t vs := by
  rintro (k' | as) r s hp hr hs he
  · simp only [chars] at he
    cases hk : k.fieldName? with
    | some n =>
      cases hk' : k'.fieldName? with
      | some n' =>
        obtain ⟨rfl, hname⟩ := fieldName?_eq_some hk
        obtain ⟨rfl, hname'⟩ := fieldName?_eq_some hk'
        simp only [hk, hk', List.cons_append, List.cons.injEq, true_and] at he
        obtain ⟨rfl, hrs⟩ := legible_name hname hname' hr hs he
        exact ⟨rfl, hrs⟩
      | none => simp [hk, hk'] at he
    | none =>
      cases hk' : k'.fieldName? with
      | some n' => simp [hk, hk'] at he
      | none =>
        simp only [hk, hk', List.cons_append, List.append_assoc, List.nil_append, List.cons.injEq, true_and] at he
        obtain ⟨rfl, hrs⟩ := h hp (by simp [closes]) (by simp [closes]) he
        exact ⟨rfl, (List.cons.inj hrs).2⟩
  · simp only [chars] at he
    cases hk : k.fieldName? <;> simp [hk] at he

theorem legible_call (hn : t.Names vs) {as : List Expr} (hp : ∀ a ∈ as, a.Plain vs)
    (h : ∀ a ∈ as, a.TextLegible t vs) : (call as).Legible t vs := by
  rintro (k' | as') r s hp' hr hs he
  · simp only [chars] at he
    cases hk : k'.fieldName? <;> simp [hk] at he
  · simp only [chars, List.cons_append, List.cons.injEq, true_and] at he
    have hfirst : ∀ a : Expr, a.Plain vs → ∃ c cs, a.chars t = c :: cs ∧ c ≠ ')' := fun a ha => by
      obtain ⟨c, cs, hcs, hc⟩ := Expr.exists_first hn ha
      exact ⟨c, cs, hcs, Expr.ne_of_begins hc (by decide)⟩
    obtain ⟨rfl, hrs⟩ := legible_listed (by decide) (by decide) hfirst hp h hp' trivial trivial he
    exact ⟨rfl, hrs⟩

theorem firstIs_suffixes {r : List Char} (hr : FirstIs endsOperand r) (ss : List Suffix) :
    FirstIs (fun c => !inName c) (ss.flatMap (chars t) ++ r) := by
  cases ss with
  | nil => exact hr.mono fun c => not_inName_of_endsOperand
  | cons s ss =>
    obtain ⟨c, cs, hcs, -, hc⟩ := s.exists_first (t := t)
    simp [hcs, hc]

theorem legible_suffixes {ss : List Suffix} (h : ∀ s ∈ ss, s.Legible t vs) :
    Text.Legible (fun ss => ss.flatMap (chars t)) (FirstIs endsOperand) (∀ s ∈ ·, s.Plain vs) ss := by
  intro ss' r r' hp hr hr' he
  -- a suffix is no end of an operand
  have goes {s : Suffix} {ss : List Suffix} {r r' : List Char} (hr : FirstIs endsOperand r)
      (he : r = (s :: ss).flatMap (chars t) ++ r') : False := by
    obtain ⟨c, cs, hcs, hc, -⟩ := s.exists_first (t := t)
    rw [he, List.flatMap_cons, hcs] at hr
    simp [hc] at hr
  induction ss generalizing ss' with
  | nil =>
    cases ss' with
    | nil => exact ⟨rfl, he⟩
    | cons s' ss' => exact (goes hr he).elim
  | cons s ss ih =>
    cases ss' with
    | nil => exact (goes hr' he.symm).elim
    | cons s' ss' =>
      simp only [List.flatMap_cons, List.append_assoc] at he
      obtain ⟨rfl, hrest⟩ := h s (.head _) (hp s' (.head _)) (firstIs_suffixes hr ss) (firstIs_suffixes hr' ss') he
      exact (ih (fun s hs => h s (.tail _ hs)) (fun s hs => hp s (.tail _ hs)) hrest).imp_left (congrArg _)

end Suffix

namespace Chain

structure Legible (t : Locals) (vs : Set LocalId) (c : Chain) : Prop where
  head : c.head.HeadLegible t vs c.wrapped
  suffixes : ∀ s ∈ c.suffixes, s.Legible t vs

theorem Legible.push {c : Chain} {s : Suffix} (hc : c.Legible t vs) (hs : s.Legible t vs) :
    (c.push s).Legible t vs where
  head := hc.head
  suffixes := by simpa [Chain.push, or_imp, forall_and] using ⟨hc.suffixes, hs⟩

theorem Legible.read {c : Chain} (hc : c.Legible t vs) :
    Text.Legible (chars t) (FirstIs endsOperand) (Plain vs) c := by
  rintro ⟨w', h', ss'⟩ r s hp hr hs he
  obtain ⟨w, h, ss⟩ := c
  simp only [chars, List.append_assoc] at he
  obtain ⟨hhead, hrest⟩ := hc.head (b := (w', h')) ⟨hp.heads, hp.head⟩ (Suffix.firstIs_suffixes hr ss)
    (Suffix.firstIs_suffixes hs ss') he
  cases hhead
  obtain ⟨rfl, hrs⟩ := Suffix.legible_suffixes hc.suffixes hp.suffixes hr hs hrest
  exact ⟨rfl, hrs⟩

theorem ne_unary (hn : t.Names vs) {c : Chain} (hc : c.Plain vs) {r : List Char} (hr : FirstIs endsOperand r)
    (op : UnaryOp) (s : List Char) : c.chars t ++ r ≠ op.text.toList ++ s := by
  intro he
  obtain ⟨w, h, ss⟩ := c
  obtain ⟨hd, hp, -⟩ := hc
  simp only [chars, List.append_assoc] at he
  cases hd with
  | var v =>
    cases hp with
    | var hv =>
      have hname := hn.identifier v hv
      simp only [Expr.operand_false, Expr.chars_var] at he
      cases op with
      | not =>
        have hnot : (t.name v).toList ++ (ss.flatMap (Suffix.chars t) ++ r) = "not".toList ++ ' ' :: s := he
        obtain ⟨heq, -⟩ := legible_name hname (b := "not") (by decide) (Suffix.firstIs_suffixes hr ss)
          (firstIs_cons.2 (by decide)) hnot
        exact hn.ne_not v hv heq
      | minus => exact name_append_ne_cons hname (by decide) _ _ he
      | length => exact name_append_ne_cons hname (by decide) _ _ he
  | string s' => cases op <;> simp [Expr.operand_false, Expr.chars_string, toList_quoted, UnaryOp.text] at he
  | table as rs => cases op <;> simp [Expr.operand_false, Expr.chars_table, UnaryOp.text] at he
  | wrapped e => cases op <;> simp [Expr.operand_true, UnaryOp.text] at he

end Chain

theorem UnaryOp.text_append_inj {op op' : UnaryOp} {r s : List Char}
    (h : op.text.toList ++ r = op'.text.toList ++ s) : op = op' ∧ r = s := by
  cases op <;> cases op' <;> first | exact ⟨rfl, List.append_cancel_left h⟩ | simp [UnaryOp.text] at h

theorem BinaryOp.text_injective : Function.Injective BinaryOp.text := by
  intro op op' h
  cases op <;> cases op' <;> first | rfl | exact absurd h (by decide)

theorem BinaryOp.text_append_inj {op op' : BinaryOp} {r s : List Char}
    (h : op.text.toList ++ ' ' :: r = op'.text.toList ++ ' ' :: s) : op = op' ∧ r = s := by
  have words (op : BinaryOp) : ∀ c ∈ op.text.toList, (c != ' ') = true := by
    cases op <;> simp [BinaryOp.text]
  obtain ⟨hop, hrest⟩ := append_inj_of_firstIs (words op) (words op') (by simp) (by simp) h
  exact ⟨BinaryOp.text_injective (String.toList_inj.1 hop), (List.cons.inj hrest).2⟩

namespace Expr

def OperandLegible (t : Locals) (vs : Set LocalId) (w : Bool) (e : Expr) : Prop :=
  Legible (fun o : Bool × Expr => o.2.operand t o.1) (FirstIs endsOperand)
    (fun o => o.2.Plain vs ∧ (o.2.needsParentheses = true → o.1 = true)) (w, e)

theorem compact_or_unary {w : Bool} {e : Expr} (hw : e.needsParentheses = true → w = true) :
    Compact w e ∨ w = false ∧ ∃ op a, e = unary op a := by
  cases w with
  | true => exact .inl fun hw => by cases hw
  | false =>
    cases e with
    | unary op a => exact .inr ⟨rfl, op, a, rfl⟩
    | _ => exact .inl fun _ => ⟨by simpa using hw, rfl⟩

theorem operandLegible_of_chain (hn : t.Names vs) {w : Bool} {e : Expr} (he : e.Plain vs) (hw : Compact w e)
    (h : (chain w e).Legible t vs) : OperandLegible t vs w e := by
  rintro ⟨w', e'⟩ r s ⟨he', hw'⟩ hr hs heq
  simp only [← chars_chain t w e] at heq
  rcases compact_or_unary hw' with hw' | ⟨rfl, op, a, rfl⟩
  · simp only [← chars_chain t w' e'] at heq
    obtain ⟨hchain, hrs⟩ := h.read (he'.chain hw') hr hs heq
    obtain rfl : e = e' := by rw [← expr_chain w e, hchain, expr_chain]
    obtain rfl : w = w' := operand_inj t (by rw [← chars_chain, hchain, chars_chain])
    exact ⟨rfl, hrs⟩
  · simp only [operand_false, chars_unary, List.append_assoc] at heq
    exact absurd heq (Chain.ne_unary hn (he.chain hw) hr op _)

theorem operandLegible_unary (hn : t.Names vs) (op : UnaryOp) {e : Expr}
    (h : OperandLegible t vs e.needsParentheses e) : OperandLegible t vs false (unary op e) := by
  rintro ⟨w', e'⟩ r s ⟨he', hw'⟩ hr hs heq
  simp only [operand_false, chars_unary, List.append_assoc] at heq
  rcases compact_or_unary hw' with hw' | ⟨rfl, op', a, rfl⟩
  · simp only [← chars_chain t w' e'] at heq
    exact absurd heq.symm (Chain.ne_unary hn (he'.chain hw') hs op _)
  · simp only [operand_false, chars_unary, List.append_assoc] at heq
    obtain ⟨rfl, hoperand⟩ := UnaryOp.text_append_inj heq
    cases he' with
    | unary _ ha =>
      obtain ⟨hpair, hrs⟩ := h (b := (a.needsParentheses, a)) ⟨ha, id⟩ hr hs hoperand
      obtain rfl : e = a := (Prod.mk.inj hpair).2
      exact ⟨rfl, hrs⟩

theorem Plain.binary_of_needsParentheses {e : Expr} (he : e.Plain vs) (hp : e.needsParentheses = true) :
    ∃ op a b, e = .binary op a b ∧ a.Plain vs ∧ b.Plain vs := by
  cases he with
  | binary op ha hb => exact ⟨op, _, _, rfl, ha, hb⟩
  | _ => cases hp

theorem textLegible_of_operand {e : Expr} (h : OperandLegible t vs false e) : TextLegible t vs e := by
  intro e' r s he' hr hs heq
  by_cases hb : e'.needsParentheses = true
  · obtain ⟨op, a, b, rfl, ha, -⟩ := he'.binary_of_needsParentheses hb
    simp only [chars_binary, List.append_assoc, List.cons_append] at heq
    obtain ⟨-, rfl⟩ := h (b := (a.needsParentheses || op == .pow && a.isUnary, a)) ⟨ha, fun h => by simp [h]⟩
      (hr.mono fun c => endsOperand_of_closes) (by simp [endsOperand]) heq
    simp [closes] at hr
  · obtain ⟨hpair, hrs⟩ := h (b := (false, e')) ⟨he', fun h => absurd h hb⟩
      (hr.mono fun c => endsOperand_of_closes) (hs.mono fun c => endsOperand_of_closes) heq
    exact ⟨(Prod.mk.inj hpair).2, hrs⟩

theorem textLegible_binary (op : BinaryOp) {a b : Expr}
    (ha : OperandLegible t vs (a.needsParentheses || op == .pow && a.isUnary) a)
    (hb : OperandLegible t vs b.needsParentheses b) : TextLegible t vs (binary op a b) := by
  intro e' r s he' hr hs heq
  simp only [chars_binary, List.append_assoc, List.cons_append] at heq
  by_cases hp : e'.needsParentheses = true
  · obtain ⟨op', a', b', rfl, ha', hb'⟩ := he'.binary_of_needsParentheses hp
    simp only [chars_binary, List.append_assoc, List.cons_append] at heq
    obtain ⟨hleft, hrest⟩ := ha (b := (a'.needsParentheses || op' == .pow && a'.isUnary, a'))
      ⟨ha', fun h => by simp [h]⟩ (by simp [endsOperand]) (by simp [endsOperand]) heq
    obtain rfl : a = a' := (Prod.mk.inj hleft).2
    obtain ⟨rfl, hright⟩ := BinaryOp.text_append_inj (List.cons.inj hrest).2
    obtain ⟨hpair, hrs⟩ := hb (b := (b'.needsParentheses, b')) ⟨hb', id⟩
      (hr.mono fun c => endsOperand_of_closes) (hs.mono fun c => endsOperand_of_closes) hright
    obtain rfl : b = b' := (Prod.mk.inj hpair).2
    exact ⟨rfl, hrs⟩
  · obtain ⟨-, rfl⟩ := ha (b := (false, e')) ⟨he', fun h => absurd h hp⟩ (by simp [endsOperand])
      (hs.mono fun c => endsOperand_of_closes) heq
    simp [closes] at hs

structure Known (t : Locals) (vs : Set LocalId) (e : Expr) : Prop where
  text : TextLegible t vs e
  operand : ∀ w, (e.needsParentheses = true → w = true) → OperandLegible t vs w e
  chain : ∀ w, Compact w e → (chain w e).Legible t vs

namespace Known

theorem of_text (hn : t.Names vs) {e : Expr} (he : e.Plain vs) (text : TextLegible t vs e)
    (bare : Compact false e → (Expr.chain false e).Legible t vs)
    (unary : e.isUnary = true → OperandLegible t vs false e) : Known t vs e := by
  have chain (w : Bool) (hw : Compact w e) : (Expr.chain w e).Legible t vs := by
    cases w with
    | false => exact bare hw
    | true =>
      have hchain : Expr.chain true e = ⟨true, e, []⟩ := by cases e <;> rfl
      exact hchain ▸ ⟨headLegible_wrapped hn text, by simp⟩
  refine ⟨text, fun w hw => ?_, chain⟩
  rcases compact_or_unary hw with hw | ⟨rfl, op, a, rfl⟩
  · exact operandLegible_of_chain hn he hw (chain w hw)
  · exact unary rfl

theorem of_chain (hn : t.Names vs) {e : Expr} (he : e.Plain vs) (hc : Compact false e)
    (h : (Expr.chain false e).Legible t vs) : Known t vs e := by
  have hoperand := operandLegible_of_chain hn he hc h
  exact of_text hn he (textLegible_of_operand hoperand) (fun _ => h) (fun _ => hoperand)

end Known

theorem Plain.known (hn : t.Names vs) {e : Expr} (he : e.Plain vs) : Known t vs e := by
  induction he with
  | var hv => exact .of_chain hn (.var hv) (fun _ => ⟨rfl, rfl⟩) ⟨headLegible_var hn hv, by simp [Expr.chain]⟩
  | string s => exact .of_chain hn (.string s) (fun _ => ⟨rfl, rfl⟩) ⟨headLegible_string hn s, by simp [Expr.chain]⟩
  | index hu he hk ihe ihk =>
    exact .of_chain hn (.index hu he hk) (fun _ => ⟨rfl, rfl⟩)
      ((ihe.chain _ (.of_isUnary hu)).push (Suffix.legible_index ihk.text))
  | unary op he ih =>
    have hoperand := operandLegible_unary hn op (ih.operand _ id)
    exact .of_text hn (.unary op he) (textLegible_of_operand hoperand) (fun hw => by cases (hw rfl).2)
      (fun _ => hoperand)
  | binary op ha hb iha ihb =>
    have htext := textLegible_binary op (iha.operand _ fun h => by simp [h]) (ihb.operand _ id)
    exact .of_text hn (.binary op ha hb) htext (fun hw => by cases (hw rfl).1) (fun hu => by cases hu)
  | call hu hf has ihf ihas =>
    exact .of_chain hn (.call hu hf has) (fun _ => ⟨rfl, rfl⟩)
      ((ihf.chain _ (.of_isUnary hu)).push (Suffix.legible_call hn has fun a ha => (ihas a ha).text))
  | table has hks hvs ihas ihks ihvs =>
    have hp := Plain.table has hks hvs
    exact .of_chain hn hp (fun _ => ⟨rfl, rfl⟩)
      ⟨headLegible_table hn hp (fun a ha => (ihas a ha).text) fun r hr => ⟨(ihks r hr).text, (ihvs r hr).text⟩,
        by simp [Expr.chain]⟩

/-- Expressions without an operation that is indexed or called have texts of their own. -/
theorem text_injOn (hn : t.Names vs) : Set.InjOn (text t) {e | e.Plain vs} := by
  intro e he e' he' h
  have hchars : e.chars t ++ [] = e'.chars t ++ [] := by rw [chars, h, chars]
  exact ((he.known hn).text he' firstIs_nil firstIs_nil hchars).1

end Expr

end LuaLift
