import LuaLift.Proofs.Syntax.Substitution

namespace LuaLift

inductive Access where
  | slot (s : Slot)
  | upvalue (n : Nat)
  | global (name : String)
  | index
  | length
  | call (arguments : Nat)
  deriving Repr, DecidableEq

def Access.isCall : Access → Bool
  | call _ => true
  | _ => false

/-- A call, or a read that a call could change; lengths are not counted in. -/
def Access.isGuarded : Access → Bool
  | upvalue _ | global _ | index | call _ => true
  | slot _ | length => false

namespace Expr

def access? : Expr → Option Access
  | slot s => some (.slot s)
  | upvalue n => some (.upvalue n)
  | global g => some (.global g)
  | index .. => some .index
  | unary .length _ => some .length
  | call _ as => some (.call as.length)
  | _ => none

def accesses (e : Expr) : List Access := e.evaluated.filterMap access?

def accessesList (es : List Expr) : List Access := (evaluatedList es).filterMap access?

/-- Closures capture nothing but variables, as their prototypes bind them. -/
def plainCaptures (es : List Expr) : Bool := (nodesList es).all fun
  | closure _ cs => cs.all (·.children.isEmpty)
  | _ => true

theorem evaluatedList_append (es fs : List Expr) :
    evaluatedList (es ++ fs) = evaluatedList es ++ evaluatedList fs := by
  induction es with
  | nil => rfl
  | cons e es ih => simp [evaluatedList, ih]

theorem nodesList_append (es fs : List Expr) : nodesList (es ++ fs) = nodesList es ++ nodesList fs := by
  induction es with
  | nil => rfl
  | cons e es ih => simp [nodesList, ih]

theorem accessesList_append (es fs : List Expr) :
    accessesList (es ++ fs) = accessesList es ++ accessesList fs := by
  rw [accessesList, evaluatedList_append, List.filterMap_append, accessesList, accessesList]

@[simp] theorem accessesList_nil : accessesList [] = [] := rfl

@[simp] theorem accessesList_cons (e : Expr) (es : List Expr) :
    accessesList (e :: es) = e.accesses ++ accessesList es := List.filterMap_append

def accessesRecords (rs : List (Expr × Expr)) : List Access := (evaluatedRecords rs).filterMap access?

@[simp] theorem accessesRecords_cons (k v : Expr) (rs : List (Expr × Expr)) :
    accessesRecords ((k, v) :: rs) = k.accesses ++ v.accesses ++ accessesRecords rs := by
  simp [accessesRecords, accesses, evaluatedRecords]

theorem accesses_index (t k : Expr) : (index t k).accesses = t.accesses ++ k.accesses ++ [.index] := by
  simp [accesses, evaluated, access?]

theorem accesses_unary (op : UnaryOp) (e : Expr) :
    (unary op e).accesses = e.accesses ++ if op = .length then [.length] else [] := by
  cases op <;> simp [accesses, evaluated, access?]

theorem accesses_binary (op : BinaryOp) (a b : Expr) : (binary op a b).accesses = a.accesses ++ b.accesses := by
  simp [accesses, evaluated, access?]

theorem accesses_call (f : Expr) (as : List Expr) :
    (call f as).accesses = f.accesses ++ accessesList as ++ [.call as.length] := by
  simp [accesses, accessesList, evaluated, access?]

theorem accesses_closure (p : Nat) (cs : List Expr) : (closure p cs).accesses = [] := by
  simp [accesses, evaluated, access?]

theorem accesses_table (as : List Expr) (rs : List (Expr × Expr)) :
    (table as rs).accesses = accessesList as ++ accessesRecords rs := by
  simp [accesses, accessesList, accessesRecords, evaluated, access?]

mutual

theorem evaluated_subset : (e : Expr) → e.evaluated ⊆ e.nodes
  | slot _ | var _ | upvalue _ | global _ | constant _ | vararg => List.Subset.refl _
  | index t k => by
    have ht := evaluated_subset t
    have hk := evaluated_subset k
    grind [evaluated, nodes]
  | unary op e => by
    have he := evaluated_subset e
    grind [evaluated, nodes]
  | binary op a b => by
    have ha := evaluated_subset a
    have hb := evaluated_subset b
    grind [evaluated, nodes]
  | call f as => by
    have hf := evaluated_subset f
    have has := evaluatedList_subset as
    grind [evaluated, nodes]
  | closure p cs => by simp [evaluated, nodes]
  | table as rs => by
    have has := evaluatedList_subset as
    have hrs := evaluatedRecords_subset rs
    grind [evaluated, nodes]

theorem evaluatedList_subset : (es : List Expr) → evaluatedList es ⊆ nodesList es
  | [] => List.Subset.refl _
  | e :: es => by
    have he := evaluated_subset e
    have hes := evaluatedList_subset es
    grind [evaluatedList, nodesList]

theorem evaluatedRecords_subset : (rs : List (Expr × Expr)) → evaluatedRecords rs ⊆ nodesRecords rs
  | [] => List.Subset.refl _
  | (k, v) :: rs => by
    have hk := evaluated_subset k
    have hv := evaluated_subset v
    have hrs := evaluatedRecords_subset rs
    grind [evaluatedRecords, nodesRecords]

end

mutual

theorem evaluated_or_captured {n : Expr} : (e : Expr) → n ∈ e.nodes →
    n ∈ e.evaluated ∨ ∃ p cs, closure p cs ∈ e.nodes ∧ n ∈ nodesList cs
  | slot _, h | var _, h | upvalue _, h | global _, h | constant _, h | vararg, h => .inl h
  | index t k, h => by
    have ht := evaluated_or_captured (n := n) t
    have hk := evaluated_or_captured (n := n) k
    grind [evaluated, nodes]
  | unary op e, h => by
    have he := evaluated_or_captured (n := n) e
    grind [evaluated, nodes]
  | binary op a b, h => by
    have ha := evaluated_or_captured (n := n) a
    have hb := evaluated_or_captured (n := n) b
    grind [evaluated, nodes]
  | call f as, h => by
    have hf := evaluated_or_captured (n := n) f
    have has := evaluated_or_capturedList (n := n) as
    grind [evaluated, nodes]
  | closure p cs, h => by
    rcases List.mem_cons.1 h with rfl | h
    · exact .inl (.head _)
    · exact .inr ⟨p, cs, .head _, h⟩
  | table as rs, h => by
    have has := evaluated_or_capturedList (n := n) as
    have hrs := evaluated_or_capturedRecords (n := n) rs
    grind [evaluated, nodes]

theorem evaluated_or_capturedList {n : Expr} : (es : List Expr) → n ∈ nodesList es →
    n ∈ evaluatedList es ∨ ∃ p cs, closure p cs ∈ nodesList es ∧ n ∈ nodesList cs
  | [], h => .inl h
  | e :: es, h => by
    have he := evaluated_or_captured (n := n) e
    have hes := evaluated_or_capturedList (n := n) es
    grind [evaluatedList, nodesList]

theorem evaluated_or_capturedRecords {n : Expr} : (rs : List (Expr × Expr)) → n ∈ nodesRecords rs →
    n ∈ evaluatedRecords rs ∨ ∃ p cs, closure p cs ∈ nodesRecords rs ∧ n ∈ nodesList cs
  | [], h => .inl h
  | (k, v) :: rs, h => by
    have hk := evaluated_or_captured (n := n) k
    have hv := evaluated_or_captured (n := n) v
    have hrs := evaluated_or_capturedRecords (n := n) rs
    grind [evaluatedRecords, nodesRecords]

end

theorem plainCaptures_iff {es : List Expr} : plainCaptures es = true ↔
    ∀ p cs, closure p cs ∈ nodesList es → ∀ c ∈ cs, c.children = [] := by
  simp only [plainCaptures, List.all_eq_true]
  constructor
  · intro h p cs hm c hc
    simpa using List.all_eq_true.1 (h _ hm) c hc
  · intro h n hn
    split
    · next cs => simpa using h _ _ hn
    · rfl

theorem eq_of_mem_nodes {e n : Expr} (h : e.children = []) (hn : n ∈ e.nodes) : n = e := by
  cases e with
  | table as rs =>
    obtain ⟨rfl, hrs⟩ := List.append_eq_nil_iff.1 h
    cases rs with
    | nil => simpa [nodes, nodesList, nodesRecords] using hn
    | cons r rs => simp [pairs] at hrs
  | closure p cs =>
    obtain rfl : cs = [] := h
    simpa [nodes, nodesList] using hn
  | slot _ | var _ | upvalue _ | global _ | constant _ | vararg => simpa [nodes] using hn
  | _ => cases h

theorem mem_of_mem_nodesList {cs : List Expr} (h : ∀ c ∈ cs, c.children = []) {n : Expr}
    (hn : n ∈ nodesList cs) : n ∈ cs := by
  induction cs with
  | nil => cases hn
  | cons c cs ih =>
    rcases List.mem_append.1 hn with hn | hn
    · rw [eq_of_mem_nodes (h c (.head _)) hn]
      exact .head _
    · exact .tail _ (ih (fun c hc => h c (.tail _ hc)) hn)

end Expr

structure Carries (o : Option Expr) (l l' : List Expr) (o' : Option Expr) : Prop where
  closures : ∀ {p cs}, .closure p cs ∈ l' → .closure p cs ∈ l ∨ ∃ x ∈ o, .closure p cs ∈ x.nodes
  left : ∀ x ∈ o', x ∈ o

namespace Carries

variable {o o' o'' : Option Expr} {k k' l l' : List Expr}

theorem refl (o : Option Expr) (l : List Expr) : Carries o l l o := ⟨.inl, fun _ h => h⟩

theorem append (h : Carries o k k' o') (h' : Carries o' l l' o'') : Carries o (k ++ l) (k' ++ l') o'' := by
  refine ⟨fun hm => ?_, fun x hx => h.left x (h'.left x hx)⟩
  rcases List.mem_append.1 hm with hm | hm
  · exact (h.closures hm).imp_left (List.mem_append_left _)
  · rcases h'.closures hm with hl | ⟨x, hx, hc⟩
    · exact .inl (List.mem_append_right _ hl)
    · exact .inr ⟨x, h.left x hx, hc⟩

theorem root (h : Carries o l l' o') {n n' : Expr} (hn : ∀ p cs, .closure p cs ≠ n') :
    Carries o (n :: l) (n' :: l') o' :=
  ⟨fun hm => (h.closures ((List.mem_cons.1 hm).resolve_left (hn _ _))).imp_left (.tail _), h.left⟩

theorem plainCaptures {es es' : List Expr} (h : Carries o (Expr.nodesList es) (Expr.nodesList es') o')
    (hes : Expr.plainCaptures es = true) (ho : ∀ x ∈ o, Expr.plainCaptures [x] = true) :
    Expr.plainCaptures es' = true := by
  refine Expr.plainCaptures_iff.2 fun p cs hm => ?_
  rcases h.closures hm with hm | ⟨x, hx, hm⟩
  · exact Expr.plainCaptures_iff.1 hes p cs hm
  · exact Expr.plainCaptures_iff.1 (ho x hx) p cs (by simpa [Expr.nodesList] using hm)

end Carries

inductive Offered (s : Slot) : Option Expr → List Access → List Access → Option Expr → Prop
  | idle (l : List Access) : Offered s none l l none
  | passed (x : Expr) {l : List Access} (h : .slot s ∉ l) : Offered s (some x) l l (some x)
  | taken (x : Expr) {l : List Access} (r : List Access) (h : .slot s ∉ l) :
      Offered s (some x) (l ++ .slot s :: r) (l ++ (x.accesses ++ r)) none

namespace Offered

variable {s : Slot} {o o' o'' : Option Expr} {k k' l l' : List Access}

theorem append (h : Offered s o k k' o') (h' : Offered s o' l l' o'') :
    Offered s o (k ++ l) (k' ++ l') o'' := by
  cases h with
  | idle =>
    cases h' with
    | idle => exact .idle _
  | passed x hk =>
    cases h' with
    | passed _ hl => exact .passed x (by simp [hk, hl])
    | taken _ r hl =>
      simp only [← List.append_assoc]
      rw [List.append_assoc _ x.accesses]
      exact .taken x r (by simp [hk, hl])
  | taken x r hk =>
    cases h' with
    | idle => simpa using Offered.taken x (r ++ l) hk

theorem fixed (o : Option Expr) (h : .slot s ∉ l) : Offered s o l l o := by
  cases o with
  | none => exact .idle l
  | some x => exact .passed x h

theorem append_fixed (h : Offered s o k k' o') (hl : .slot s ∉ l) : Offered s o (k ++ l) (k' ++ l) o' :=
  h.append (.fixed o' hl)

theorem of_mem {x : Expr} (h : Offered s (some x) l l' o') (hs : .slot s ∈ l) :
    o' = none ∧ ∃ a b, l = a ++ .slot s :: b ∧ .slot s ∉ a ∧ l' = a ++ (x.accesses ++ b) := by
  cases h with
  | passed _ hl => exact absurd hs hl
  | taken _ b ha => exact ⟨rfl, _, b, rfl, ha, rfl⟩

end Offered

namespace Expr

theorem length_substituteList (c : Cell) (es : List Expr) (o : Option Expr) :
    (substituteList c es o).1.length = es.length := by
  induction es generalizing o with
  | nil => rfl
  | cons e es ih => simp [substituteList, ih]

theorem carries_cell (c d : Cell) (e : Expr) (o : Option Expr) :
    Carries o e.nodes (if c = d then (o.getD e, none) else (e, o) : Expr × Option Expr).1.nodes
      (if c = d then (o.getD e, none) else (e, o) : Expr × Option Expr).2 := by
  by_cases h : c = d
  · rw [if_pos h]
    cases o with
    | none => exact .refl _ _
    | some x => exact ⟨fun hm => .inr ⟨x, rfl, hm⟩, by simp⟩
  · rw [if_neg h]
    exact .refl _ _

mutual

theorem carries (c : Cell) : (e : Expr) → (o : Option Expr) →
    Carries o e.nodes (e.substitute c o).1.nodes (e.substitute c o).2
  | slot s, o => carries_cell c ⟨.slot, s⟩ (slot s) o
  | var v, o => carries_cell c ⟨.var, v⟩ (var v) o
  | upvalue _, o | global _, o | constant _, o | vararg, o | closure _ _, o => .refl o _
  | index t k, o => ((carries c t o).append (carries c k _)).root (by simp)
  | unary op e, o => (carries c e o).root (by simp)
  | binary op a b, o => ((carries c a o).append (carries c b _)).root (by simp)
  | call f as, o => ((carries c f o).append (carriesList c as _)).root (by simp)
  | table as rs, o => ((carriesList c as o).append (carriesRecords c rs _)).root (by simp)

theorem carriesList (c : Cell) : (es : List Expr) → (o : Option Expr) →
    Carries o (nodesList es) (nodesList (substituteList c es o).1) (substituteList c es o).2
  | [], o => .refl o _
  | e :: es, o => (carries c e o).append (carriesList c es _)

theorem carriesRecords (c : Cell) : (rs : List (Expr × Expr)) → (o : Option Expr) →
    Carries o (nodesRecords rs) (nodesRecords (substituteRecords c rs o).1) (substituteRecords c rs o).2
  | [], o => .refl o _
  | (k, v) :: rs, o => ((carries c k o).append (carries c v _)).append (carriesRecords c rs _)

end

mutual

theorem offered (s : Slot) : (e : Expr) → (o : Option Expr) →
    Offered s o e.accesses (e.substitute ⟨.slot, s⟩ o).1.accesses (e.substitute ⟨.slot, s⟩ o).2
  | slot t, o => by
    by_cases h : s = t
    · subst h
      cases o with
      | none => simpa [substitute] using Offered.idle _
      | some x =>
        have hread : (slot s).accesses = [.slot s] := rfl
        simpa [substitute, hread] using Offered.taken x (l := []) [] (by simp)
    · have hc : (⟨.slot, s⟩ : Cell) ≠ ⟨.slot, t⟩ := by simpa using h
      simp only [substitute, if_neg hc]
      exact .fixed o (by simpa [accesses, evaluated, access?] using h)
  | var v, o => by
    simp only [substitute, if_neg (show (⟨.slot, s⟩ : Cell) ≠ ⟨.var, v⟩ by simp)]
    exact .fixed o (by simp [accesses, evaluated, access?])
  | upvalue n, o => .fixed o (by simp [accesses, evaluated, access?])
  | global g, o => .fixed o (by simp [accesses, evaluated, access?])
  | constant k, o => .fixed o (by simp [accesses, evaluated, access?])
  | vararg, o => .fixed o (by simp [accesses, evaluated, access?])
  | index t k, o => by
    simp only [substitute, accesses_index]
    exact ((offered s t o).append (offered s k _)).append_fixed (by simp)
  | unary op e, o => by
    simp only [substitute, accesses_unary]
    exact (offered s e o).append_fixed (by split <;> simp)
  | binary op a b, o => by
    simp only [substitute, accesses_binary]
    exact (offered s a o).append (offered s b _)
  | call f as, o => by
    simp only [substitute, accesses_call, length_substituteList]
    exact ((offered s f o).append (offeredList s as _)).append_fixed (by simp)
  | closure p cs, o => .fixed o (by simp [accesses_closure])
  | table as rs, o => by
    simp only [substitute, accesses_table]
    exact (offeredList s as o).append (offeredRecords s rs _)

theorem offeredList (s : Slot) : (es : List Expr) → (o : Option Expr) →
    Offered s o (accessesList es) (accessesList (substituteList ⟨.slot, s⟩ es o).1)
      (substituteList ⟨.slot, s⟩ es o).2
  | [], o => .fixed o (by simp)
  | e :: es, o => by
    simp only [substituteList, accessesList_cons]
    exact (offered s e o).append (offeredList s es _)

theorem offeredRecords (s : Slot) : (rs : List (Expr × Expr)) → (o : Option Expr) →
    Offered s o (accessesRecords rs) (accessesRecords (substituteRecords ⟨.slot, s⟩ rs o).1)
      (substituteRecords ⟨.slot, s⟩ rs o).2
  | [], o => .fixed o (by simp [accessesRecords, evaluatedRecords])
  | (k, v) :: rs, o => by
    simp only [substituteRecords, accessesRecords_cons]
    exact ((offered s k o).append (offered s v _)).append (offeredRecords s rs _)

end

end Expr

namespace Stmt

theorem carries_targets (c : Cell) (es : List Expr) (o : Option Expr) :
    Carries o (Expr.nodesList (es.flatMap Expr.targetOperands))
      (Expr.nodesList ((substituteTargets c es o).1.flatMap Expr.targetOperands))
      (substituteTargets c es o).2 := by
  induction es generalizing o with
  | nil => exact .refl o _
  | cons e es ih =>
    simp only [List.flatMap_cons, Expr.nodesList_append, substituteTargets]
    refine Carries.append ?_ (ih _)
    cases e with
    | index t k => exact (Expr.carries c t o).append ((Expr.carries c k _).append (.refl _ []))
    | _ => exact .refl o _

theorem carries (c : Cell) (t : Stmt) (o : Option Expr) :
    Carries o (Expr.nodesList t.operands) (Expr.nodesList (t.substitute c o).1.operands)
      (t.substitute c o).2 := by
  cases t with
  | assign a =>
    simp only [operands, substitute, Expr.nodesList_append]
    exact (carries_targets c a.targets o).append (Expr.carriesList c a.values _)
  | call f as l => exact (Expr.carries c f o).append (Expr.carriesList c as _)
  | ret vs l => exact Expr.carriesList c vs o
  | declare vs => exact .refl o _

def accesses (s : Stmt) : List Access := Expr.accessesList s.operands

theorem offered_target (s : Slot) (e : Expr) (o : Option Expr) :
    Offered s o (Expr.accessesList e.targetOperands)
      (Expr.accessesList (substituteTarget ⟨.slot, s⟩ e o).1.targetOperands)
      (substituteTarget ⟨.slot, s⟩ e o).2 := by
  cases e with
  | index t k =>
    simp only [substituteTarget, Expr.targetOperands, Expr.accessesList_cons]
    exact (Expr.offered s t o).append ((Expr.offered s k _).append_fixed (by simp))
  | _ => exact .fixed o (by simp [Expr.targetOperands])

theorem offered_targets (s : Slot) (es : List Expr) (o : Option Expr) :
    Offered s o (Expr.accessesList (es.flatMap Expr.targetOperands))
      (Expr.accessesList ((substituteTargets ⟨.slot, s⟩ es o).1.flatMap Expr.targetOperands))
      (substituteTargets ⟨.slot, s⟩ es o).2 := by
  induction es generalizing o with
  | nil => exact .fixed o (by simp)
  | cons e es ih =>
    simp only [substituteTargets, List.flatMap_cons, Expr.accessesList_append]
    exact (offered_target s e o).append (ih _)

theorem offered (s : Slot) (t : Stmt) (o : Option Expr) :
    Offered s o t.accesses (t.substitute ⟨.slot, s⟩ o).1.accesses (t.substitute ⟨.slot, s⟩ o).2 := by
  cases t with
  | assign a =>
    simp only [accesses, substitute, operands, Expr.accessesList_append]
    exact (offered_targets s a.targets o).append (Expr.offeredList s a.values _)
  | call f as l =>
    simp only [accesses, substitute, operands, Expr.accessesList_cons]
    exact (Expr.offered s f o).append (Expr.offeredList s as _)
  | ret vs l => exact Expr.offeredList s vs o
  | declare vs => exact .fixed o (by simp [accesses, operands])

end Stmt

end LuaLift
