import LuaLift.Failure

namespace LuaLift

inductive Reason.Kind where
  | malformed
  | unsettled
  | irreducible
  | violated
  deriving Repr, DecidableEq

def Reason.kind : Reason → Kind
  | malformed _ => .malformed
  | unsettled _ => .unsettled
  | irreducible .. => .irreducible
  | violated .. => .violated

variable {α β γ δ : Type}

inductive Agree (R : α → β → Prop) : Except Reason α → Except Reason β → Prop where
  | ok {a : α} {b : β} (h : R a b) : Agree R (.ok a) (.ok b)
  | error {e e' : Reason} (h : e'.kind = e.kind) : Agree R (.error e) (.error e')

namespace Agree

variable {R : α → β → Prop} {x : Except Reason α} {y : Except Reason β}

theorem bind {S : γ → δ → Prop} {k : α → Except Reason γ} {k' : β → Except Reason δ} (h : Agree R x y)
    (hk : ∀ a b, R a b → Agree S (k a) (k' b)) : Agree S (x >>= k) (y >>= k') := by
  cases h with
  | ok h => exact hk _ _ h
  | error h => exact .error h

theorem map {S : γ → δ → Prop} {g : α → γ} {g' : β → δ} (h : Agree R x y) (hg : ∀ a b, R a b → S (g a) (g' b)) :
    Agree S (x.map g) (y.map g') := by
  cases h with
  | ok h => exact .ok (hg _ _ h)
  | error h => exact .error h

theorem of_ok_iff {x y : Except Reason α} {k : Reason.Kind} (h : ∀ a, x = .ok a ↔ y = .ok a)
    (hx : ∀ e, x = .error e → e.kind = k) (hy : ∀ e, y = .error e → e.kind = k) :
    Agree (fun a b => b = a) x y := by
  cases hxe : x with
  | ok a =>
    rw [(h a).1 hxe]
    exact .ok rfl
  | error e =>
    cases hye : y with
    | ok a =>
      rw [(h a).2 hye] at hxe
      cases hxe
    | error e' => exact .error ((hy e' hye).trans (hx e hxe).symm)

end Agree

end LuaLift
