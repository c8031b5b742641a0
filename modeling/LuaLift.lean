import LuaLift.Main
import LuaLift.Proofs.Proto.Simplify
import LuaLift.Proofs.Proto.Folding
import LuaLift.Proofs.Slots.Resolve
import LuaLift.Proofs.Structure
import LuaLift.Proofs.Region.Contents
import LuaLift.Proofs.Region.Falling
import LuaLift.Proofs.Region.Restored
import LuaLift.Proofs.Tree.Declaring
import LuaLift.Proofs.Tree.Declarable
import LuaLift.Proofs.Slots.Captures
import LuaLift.Proofs.Slots.Dataflow
import LuaLift.Proofs.Slots.Interference
import LuaLift.Proofs.Slots.Acceptance
import LuaLift.Proofs.Loops.Classify
import LuaLift.Proofs.Tree.Carried
import LuaLift.Proofs.Tree.Choosing
import LuaLift.Proofs.Renumber.Graph
import LuaLift.Proofs.Renumber.Lift
import LuaLift.Proofs.Slots.Arrival
import LuaLift.Proofs.Slots.Classes
import LuaLift.Proofs.Slots.Settling
import LuaLift.Proofs.Slots.Naming
import LuaLift.Proofs.Slots.Protection
import LuaLift.Proofs.Proto.Normal
import LuaLift.Proofs.Tree.Declared
import LuaLift.Proofs.Proto.Accepted
import LuaLift.Proofs.Slots.Consumed
import LuaLift.Proofs.Tree.Execution
import LuaLift.Proofs.Tree.Normal
import LuaLift.Proofs.Tree.Lifetimes
import LuaLift.Proofs.Flow.DominatorTree
import LuaLift.Proofs.Flow.Nesting
import LuaLift.Proofs.Flow.Descent
import LuaLift.Proofs.Flow.Order
import LuaLift.Proofs.Data.Unions
import LuaLift.Proofs.Proto.Coverage
import LuaLift.Proofs.Text.Legible
import LuaLift.Proofs.Syntax.Printed
