import LuaLift.Proto.Basic
import LuaLift.Syntax.Locals

namespace LuaLift

inductive ExitKind where
  | ret
  | brk
  deriving Repr, DecidableEq

def ExitKind.text : ExitKind → String
  | ret => "return"
  | brk => "break"

inductive Violation where
  | emptyFunction
  | blockIdMismatch (index id : BlockId)
  | danglingTarget (block target : BlockId)
  | misplacedReturn (block : BlockId)
  | returnWithSuccessor (block : BlockId)
  | undefinedSlot (block : BlockId) (slot : Slot)
  | missingPrototype (block : BlockId) (prototype : Nat)
  | unexpectedDeclaration (block : BlockId)
  | unresolvedSlot (slot : Slot)
  | breakOutsideLoop
  | exitNotLast (exit : ExitKind)
  | undeclaredLocal (v : LocalId)
  | duplicateDeclaration (v : LocalId)
  | unknownLocal (v : LocalId)
  deriving Repr, DecidableEq

namespace Violation

def message : Violation → String
  | emptyFunction => "function has no blocks"
  | blockIdMismatch i id => "block at index " ++ toString i ++ " carries id " ++ toString id
  | danglingTarget b t => "block " ++ toString b ++ " jumps to missing block " ++ toString t
  | misplacedReturn b => "block " ++ toString b ++ " has statements after a return"
  | returnWithSuccessor b => "block " ++ toString b ++ " returns but still jumps to a successor"
  | undefinedSlot b s =>
    "block " ++ toString b ++ " reads slot " ++ toString s ++ " which no path defines"
  | missingPrototype b p =>
    "block " ++ toString b ++ " instantiates missing child prototype " ++ toString p
  | unexpectedDeclaration b => "block " ++ toString b ++ " holds a declaration before structuring"
  | unresolvedSlot s => "slot " ++ toString s ++ " was never resolved to a local"
  | breakOutsideLoop => "break outside of any loop"
  | exitNotLast e => e.text ++ " is not the last statement of its block"
  | undeclaredLocal v =>
    "local " ++ Locals.label v ++ " is used outside the scope of its declaration"
  | duplicateDeclaration v => "local " ++ Locals.label v ++ " is declared more than once"
  | unknownLocal v => "local " ++ Locals.label v ++ " is not in the local table"

end Violation

inductive Stage where
  | simplification
  | inlining
  | resolution
  | declaration
  | tidying
  deriving Repr, DecidableEq

def Stage.text : Stage → String
  | simplification => "pre-pass"
  | inlining => "temporary elimination"
  | resolution => "slot resolution"
  | declaration => "declaration placement"
  | tidying => "finalizer"

inductive Obstacle where
  | sideEntry (source : BlockId)
  | uncovered
  | repeated
  | crossing (header : BlockId)
  | untestedLatch
  deriving Repr, DecidableEq

def Obstacle.message : Obstacle → String
  | sideEntry s => "cycle entered from block " ++ toString s ++ " without passing its header"
  | uncovered => "block is not covered by any structured construct"
  | repeated => "block is reached from more than one structured position"
  | crossing h => "jump leaves the loop at block " ++ toString h ++ " for an enclosing loop"
  | untestedLatch => "repeat latch has no test"

inductive Reason where
  | malformed (v : Violation)
  | unsettled (rounds : Nat)
  | irreducible (block : BlockId) (o : Obstacle)
  | violated (stage : Stage) (v : Violation)
  deriving Repr, DecidableEq

namespace Reason

def message : Reason → String
  | malformed v => "malformed control flow graph: " ++ v.message
  | unsettled n =>
    "slot liveness did not reach a fixed point within " ++ toString n ++ " rounds"
  | irreducible b o => "irreducible control flow at block " ++ toString b ++ ": " ++ o.message
  | violated s v => "invariant violated after " ++ s.text ++ ": " ++ v.message

def isInternal : Reason → Bool
  | violated .. => true
  | _ => false

end Reason

structure Failure where
  prototype : Nat
  reason : Reason
  deriving Repr, DecidableEq

def Failure.message (f : Failure) : String :=
  "function #" ++ toString f.prototype ++ ": " ++ f.reason.message

end LuaLift
