import LuaLift.Proofs.Agreement
import LuaLift.Proofs.Renumber.Region
import LuaLift.Proofs.Renumber.Resolve
import LuaLift.Proofs.Renumber.TestChain
import LuaLift.Proofs.Structure

namespace LuaLift

variable {π : Equiv.Perm Nat}

namespace Plan

variable {pl : Plan}

mutual

theorem kind_of_region {fr : List Frame} {stop current : Option BlockId} {pending : List BlockId} {x : Reason}
    (h : pl.region fr stop current pending = .error x) : x.kind = .irreducible := by
  unfold region at h
  split at h
  · cases h
  · next b =>
    split at h
    · cases h
    · split at h
      · cases h
      · cases h
      · cases h
        rfl
      · split at h
        · next l hl =>
          split at h
          · next hn =>
            cases h
            exact kind_of_loopNode hn
          · next node left hlt hn =>
            split at h
            · next hr =>
              cases h
              exact kind_of_region hr
            · cases h
        · split at h
          · next hb =>
            cases h
            exact kind_of_place hb
          · cases h
termination_by (pending.length, 2)

theorem kind_of_place {fr : List Frame} {stop : Option BlockId} {b : BlockId} {pending : List BlockId} {x : Reason}
    (h : pl.place fr stop b pending = .error x) : x.kind = .irreducible := by
  unfold place at h
  split at h
  · next hb =>
    have hlt := Digraph.length_erase_lt hb
    simp only at h
    split at h
    · cases h
    · split at h
      · cases h
      · split at h
        · next hr =>
          cases h
          exact kind_of_region hr
        · cases h
      · split at h
        · next ht =>
          cases h
          exact kind_of_region ht
        · next onTrue left hle ht =>
          have hleft := Nat.lt_of_le_of_lt hle hlt
          simp only at h hleft
          split at h
          · next he =>
            cases h
            exact kind_of_region he
          · next onFalse later hle' he =>
            have hlater := Nat.lt_of_le_of_lt hle' hleft
            simp only at h hlater
            split at h
            · next hr =>
              cases h
              exact kind_of_region hr
            · cases h
  · cases h
    rfl
termination_by (pending.length, 0)

theorem kind_of_headed {fr : List Frame} {l : ShapedLoop} {entry : BlockId} {pending : List BlockId} {x : Reason}
    (h : pl.headed fr l entry pending = .error x) : x.kind = .irreducible := by
  unfold headed at h
  split at h
  · next hb =>
    have hlt := Digraph.length_erase_lt hb
    simp only at h
    split at h
    · next hr =>
      cases h
      exact kind_of_region hr
    · cases h
  · cases h
    rfl
termination_by (pending.length, 0)

theorem kind_of_loopNode {fr : List Frame} {l : ShapedLoop} {pending : List BlockId} {x : Reason}
    (h : pl.loopNode fr l pending = .error x) : x.kind = .irreducible := by
  unfold loopNode at h
  split at h
  · split at h
    · next hr =>
      cases h
      exact kind_of_headed hr
    · cases h
  · split at h
    · next hr =>
      cases h
      exact kind_of_headed hr
    · cases h
  · split at h
    · next hr =>
      cases h
      exact kind_of_headed hr
    · cases h
  · split at h
    · next hr =>
      cases h
      exact kind_of_place hr
    · split at h
      · cases h
      · cases h
        rfl
  · split at h
    · next hr =>
      cases h
      exact kind_of_place hr
    · cases h
termination_by (pending.length, 1)

end

theorem kind_of_build {x : Reason} (h : pl.build = .error x) : x.kind = .irreducible := by
  unfold build at h
  split at h
  · next hr =>
    cases h
    exact kind_of_region hr
  · split at h
    · cases h
      rfl
    · cases h

theorem Renumbers.build_agree {pl' : Plan} (h : pl.Renumbers π pl') (hs : pl'.Renumbers π.symm pl)
    (hf : pl.flow.Rooted) : Agree (fun a b => b = a) pl.build pl'.build := by
  apply Agree.of_ok_iff
  · intro body
    exact ⟨h.build hf, hs.build (h.flow.rooted hf)⟩
  · intro x hx
    exact kind_of_build hx
  · intro x hx
    exact kind_of_build hx

end Plan

def Routine.renumber (π : Equiv.Perm Nat) (r : Routine) : Routine := { r with notes := r.notes.map (.renumber π) }

namespace Proto.Renumbers

variable {p q : Proto} (hr : p.Renumbers π q) (rounds : Nat)
include hr

theorem solve_agree (kind : CellKind) :
    Agree (Liveness.Renumbers π) (Liveness.solve kind p rounds) (Liveness.solve kind q rounds) := by
  have hempty : (Liveness.empty p.blocks.length).Renumbers π (.empty p.blocks.length) :=
    ⟨.replicate (fun _ => hr.lt_length_iff) _, .replicate (fun _ => hr.lt_length_iff) _⟩
  have hsettle := Liveness.Renumbers.settle hr hr.flow kind rounds hempty
  rw [Liveness.solve, Liveness.solve, hr.length]
  generalize Liveness.settle kind p (.of p) rounds (.empty p.blocks.length) = x at hsettle
  generalize Liveness.settle kind q (.of q) rounds (.empty p.blocks.length) = y at hsettle
  cases hsettle with
  | none => exact .error rfl
  | some h => exact .ok h

theorem reaching_agree {ds ds' : Definitions} (hd : ds.Renumbers π ds') : Agree (Definitions.Reaching.Renumbers π)
    (ds.reaching p (.of p) rounds) (ds'.reaching q (.of q) rounds) := by
  have hempty : (Definitions.Reaching.empty p.blocks.length).Renumbers π (.empty p.blocks.length) :=
    ⟨.replicate (fun _ => hr.lt_length_iff) _, .replicate (fun _ => hr.lt_length_iff) _⟩
  have hsettle := hd.settle hr hr.flow rounds hempty
  rw [Definitions.reaching, Definitions.reaching, hr.length]
  generalize ds.settle p (.of p) rounds (.empty p.blocks.length) = x at hsettle
  generalize ds'.settle q (.of q) rounds (.empty p.blocks.length) = y at hsettle
  cases hsettle with
  | none => exact .error rfl
  | some h => exact .ok h

theorem inlined_agree {r r' : Protected} (hp : r.Renumbers π r') :
    Agree (fun a b => a.1.Renumbers π b.1) (p.inlined rounds r) (q.inlined rounds r') := by
  apply (hr.solve_agree rounds .slot).map
  intro l l' hl
  exact hr.inline hl hp

theorem resolve_agree :
    Agree (fun a b => a.1.Renumbers π b.1 ∧ b.2 = a.2) (p.resolve rounds) (q.resolve rounds) := by
  have hd := Definitions.of_renumber hr hr.flow
  apply (hr.solve_agree rounds .slot).bind
  intro l l' hl
  apply (hr.reaching_agree rounds hd).bind
  intro r r' h
  rw [hd.undefinedRead? hr hr.flow h]
  cases (Definitions.of p (.of p)).undefinedRead? p (.of p) r with
  | some e => exact .error rfl
  | none =>
    simp only [Option.map_none, hd.webs hr hr.flow h hl]
    exact .ok ⟨hd.bindBlocks hr hr.flow h _, hd.locals hr _⟩

omit rounds

theorem foldedTests : p.foldedTests.Renumbers π q.foldedTests := by
  obtain ⟨hfold, hk⟩ := foldLoop p.blocks.length hr
  simp only [Proto.foldedTests, foldTests, hr.length, hk]
  by_cases h : (Proto.foldLoop p.blocks.length p).2 = 0
  · simp only [h, if_true]
    exact hfold
  · simp only [h, if_false]
    exact hfold.clearUnreachable

theorem shortened (o : Options) : (p.shortened o).Renumbers π (q.shortened o) := by
  rw [Proto.shortened, Proto.shortened]
  split
  · exact hr
  · exact hr.foldedTests

theorem plan (t : Locals) (recognizeFor : Bool) :
    (Plan.of (p.classify (.of p) t recognizeFor).proto (.of p) (p.classify (.of p) t recognizeFor).loops).Renumbers π
      (.of (q.classify (.of q) t recognizeFor).proto (.of q) (q.classify (.of q) t recognizeFor).loops) := by
  obtain ⟨hproto, -, -, hloop⟩ := hr.classify hr.flow hr.rooted t recognizeFor
  exact ⟨hproto, hr.flow, hr.flow.mergePoints hr.rooted, hloop⟩

theorem structure_agree (o : Options) (t : Locals) :
    Agree (fun a b => b = a.renumber π) (p.structure? o t) (q.structure? o t) := by
  have hs := hr.shortened o
  unfold structure?
  unfold Proto.shortened at hs
  simp only
  generalize (if o.skipTestFolding then p else p.foldedTests) = p at hs ⊢
  generalize (if o.skipTestFolding then q else q.foldedTests) = q at hs ⊢
  rw [hs.flow.find?_retreating]
  cases Flow.sideEntry? (.of p) (Flow.of p).dominance with
  | some e => exact .error rfl
  | none =>
    obtain ⟨-, hlocals, hnotes, -⟩ := hs.classify hs.flow hs.rooted t !o.skipForLoops
    apply ((hs.plan t _).build_agree (hs.symm.plan t _) hs.rooted).map
    rintro body _ rfl
    have hid : q.id = p.id := by rw [hs.apart]
    have hvariadic : q.variadic = p.variadic := by rw [hs.apart]
    simp only [hid, hvariadic, hlocals, hnotes]
    rfl

end Proto.Renumbers

namespace Options

variable {p q : Proto} (o : Options)

theorem gate_agree (stage : Stage) {v w : Option Violation} (h : v = none ↔ w = none) :
    Agree (fun _ _ => True) (o.gate stage v) (o.gate stage w) := by
  unfold gate
  cases o.checkStages with
  | false => exact .ok trivial
  | true =>
    cases v with
    | none =>
      rw [h.1 rfl]
      exact .ok trivial
    | some v =>
      cases w with
      | none => cases h.2 rfl
      | some w => exact .error rfl

theorem gate_violation?_agree (hr : p.Renumbers π q) (stage : Stage) :
    Agree (fun _ _ => True) (o.gate stage p.violation?) (o.gate stage q.violation?) :=
  o.gate_agree stage ⟨hr.violation?_eq_none, hr.symm.violation?_eq_none⟩

theorem inlining_agree (hr : p.Renumbers π q) : Agree (Proto.Renumbers π) (o.inlining p) (o.inlining q) := by
  unfold inlining
  split
  · exact .ok hr
  · apply (hr.inlined_agree o.maxRounds (Protected.of_renumber hr hr.flow)).bind
    intro a b hab
    apply (o.gate_violation?_agree hab .inlining).bind
    intro _ _ _
    exact .ok hab

theorem stages_agree (hr : p.Renumbers π q) (hp : p.WellShaped) :
    ∃ ρ : Equiv.Perm Nat, p.simplify.1.Renumbers ρ q.simplify.1 ∧
      Agree (fun a b => b = a.renumber ρ) (o.stages p) (o.stages q) := by
  obtain ⟨ρ, hs⟩ := hr.simplify hp
  refine ⟨ρ, hs, ?_⟩
  unfold stages
  generalize p.simplify = p' at hs
  generalize q.simplify = q' at hs
  apply (o.gate_violation?_agree hs .simplification).bind
  intro _ _ _
  apply (o.inlining_agree hs).bind
  intro p₁ q₁ hi
  apply (hi.resolve_agree o.maxRounds).bind
  intro a b hab
  apply (o.gate_violation?_agree hab.1 .resolution).bind
  intro _ _ _
  rw [hab.2]
  apply (hab.1.structure_agree o _).bind
  rintro r _ rfl
  have hdeclared : (r.renumber ρ).declare = r.declare.renumber ρ := rfl
  have htidied : r.declare.tidy.1.violation? = (r.declare.renumber ρ).tidy.1.violation? := rfl
  rw [hdeclared]
  apply (o.gate_agree .declaration (.refl _)).bind
  intro _ _ _
  simp only
  rw [← htidied]
  cases r.declare.tidy.1.violation? with
  | some v => exact .error rfl
  | none => exact .ok rfl

end Options

namespace Proto

variable {p q : Proto}

theorem lift_eq (o : Options) (p : Proto) :
    p.lift o = (p.liftOwn o).map fun r => { r with children := liftAll o p.children } := by
  obtain ⟨id, parameters, variadic, blocks, debugNames, children⟩ := p
  rw [lift]
  cases liftOwn o ⟨id, parameters, variadic, blocks, debugNames, children⟩ <;> rfl

/-- Lifting does not depend on the numbers of the blocks. The function with other numbers is accepted as well;
both are lifted, with one tree, table of variables and list of parameters, the same children, and the same
notes but for the numbers of the blocks they name, or both fail for one kind of reason. -/
theorem lift_renumbers (hr : p.Renumbers π q) (hv : p.violation? = none) (hp : p.prototypeViolation? = none)
    (o : Options) :
    (∃ (r : Routine) (ρ : Equiv.Perm Nat), p.lift o = .ok r ∧ q.lift o = .ok (r.renumber ρ) ∧
      ({ p with children := [] } : Proto).simplify.1.Renumbers ρ ({ q with children := [] } : Proto).simplify.1) ∨
    ∃ x y : Failure, p.lift o = .error x ∧ q.lift o = .error y ∧ y.prototype = x.prototype ∧
      y.reason.kind = x.reason.kind := by
  have hchildless : ({ p with children := [] } : Proto).Renumbers π { q with children := [] } :=
    ⟨hr.entry, hr.numbered, hr.zero, hr.fixes, hr.blocks, by rw [hr.apart]⟩
  have hwell : ({ p with children := [] } : Proto).WellShaped := by
    obtain ⟨h₁, h₂, h₃, h₄, h₅⟩ := wellShaped_of_violation hv
    exact ⟨h₁, h₂, h₃, h₄, h₅⟩
  obtain ⟨ρ, hsimplified, hstages⟩ := o.stages_agree hchildless hwell
  have hown {p : Proto} (hv : p.violation? = none) (hp : p.prototypeViolation? = none) :
      p.liftOwn o = (o.stages { p with children := [] }).mapError (⟨p.id, ·⟩) := by
    rw [liftOwn, hv, hp]
    rfl
  rw [lift_eq, lift_eq, hown hv hp, hown (hr.violation?_eq_none hv) (hr.prototypeViolation?_eq_none hp), hr.children]
  generalize o.stages { p with children := [] } = x at hstages
  generalize o.stages { q with children := [] } = y at hstages
  cases hstages with
  | ok h =>
    subst h
    exact .inl ⟨_, ρ, rfl, rfl, hsimplified⟩
  | error h =>
    refine .inr ⟨_, _, rfl, rfl, ?_, h⟩
    rw [hr.apart]

def uncopied : Proto :=
  { id := 0, parameters := 3
    blocks := [
      ⟨0, 0, 0, [], .always 1⟩,
      ⟨1, 0, 0, [], .branch (.binary .le (.slot 0) (.slot 1)) 2 3⟩,
      ⟨2, 0, 0, [.store (.slot 0) (.binary .add (.slot 0) (.slot 2))], .always 1⟩,
      ⟨3, 0, 0, [.ret [] 0], .leave⟩] }

def uncopiedLast : Proto :=
  { id := 0, parameters := 3
    blocks := [
      ⟨0, 0, 0, [], .always 3⟩,
      ⟨1, 0, 0, [.ret [] 0], .leave⟩,
      ⟨2, 0, 0, [.store (.slot 0) (.binary .add (.slot 0) (.slot 2))], .always 3⟩,
      ⟨3, 0, 0, [], .branch (.binary .le (.slot 0) (.slot 1)) 2 1⟩] }

theorem uncopied_renumbers : uncopied.Renumbers (Equiv.swap 1 3) uncopiedLast := by
  have hother {b : Nat} (hb : 4 ≤ b) : Equiv.swap 1 3 b = b := Equiv.swap_apply_of_ne_of_ne (by omega) (by omega)
  refine ⟨by decide, fun i b hb => ?_, rfl, fun b hb => hother hb, fun b => ?_, rfl⟩
  · rcases i with _ | _ | _ | _ | i <;> cases hb <;> rfl
  · rcases b with _ | _ | _ | _ | b
    · rfl
    · rfl
    · rfl
    · rfl
    · rw [hother (Nat.le_add_left 4 b)]
      rfl

theorem lift_renumbers_uncopied : uncopied.Renumbers (Equiv.swap 1 3) uncopiedLast ∧ uncopied.violation? = none ∧
    uncopied.prototypeViolation? = none ∧ ∃ (r : Routine) (ρ : Equiv.Perm Nat), uncopied.lift default = .ok r ∧
      uncopiedLast.lift default = .ok (r.renumber ρ) ∧ uncopied.simplify.1.Renumbers ρ uncopiedLast.simplify.1 := by
  have hv : uncopied.violation? = none := by cbv
  have hok : (uncopied.lift default).isOk = true := by cbv
  refine ⟨uncopied_renumbers, hv, by cbv, ?_⟩
  rcases lift_renumbers uncopied_renumbers hv (by cbv) default with h | ⟨x, y, hx, -⟩
  · exact h
  · simp [hx, Except.isOk, Except.toBool] at hok

end Proto

end LuaLift
