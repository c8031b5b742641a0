import LuaLift.Syntax.Printer
import LuaLift.Tree.Basic

namespace LuaLift

def indent (lines : List String) : List String := lines.map ("  " ++ ·)

namespace Node

variable (t : Locals)

def names (vs : List LocalId) : String := ", ".intercalate (vs.map t.name)

def stepText (step : Expr) : String :=
  match step with
  | .constant (.number x) => if x == 1 then "" else ", " ++ step.text t
  | _ => ", " ++ step.text t

mutual

def lines : Node → List String
  | stmt s => [s.text t]
  | brk => ["break"]
  | scope b => "do" :: indent (linesOf b) ++ ["end"]
  | ifThen c b => ("if " ++ c.text t ++ " then") :: indent (linesOf b) ++ ["end"]
  | ifElse c a b =>
    ("if " ++ c.text t ++ " then") :: indent (linesOf a) ++ elseLines b ++ ["end"]
  | whileDo c b => ("while " ++ c.text t ++ " do") :: indent (linesOf b) ++ ["end"]
  | repeatUntil b c => "repeat" :: indent (linesOf b) ++ ["until " ++ c.text t]
  | numericFor v start stop step b =>
    ("for " ++ t.name v ++ " = " ++ start.text t ++ ", " ++ stop.text t ++ stepText t step ++ " do")
      :: indent (linesOf b) ++ ["end"]
  | genericFor vs es b =>
    ("for " ++ names t vs ++ " in " ++ Expr.listText t es ++ " do") :: indent (linesOf b) ++ ["end"]

def linesOf : List Node → List String
  | [] => []
  | n :: rest => n.lines ++ linesOf rest

def elseLines : List Node → List String
  | [ifThen c b] => ("elseif " ++ c.text t ++ " then") :: indent (linesOf b)
  | [ifElse c a b] => ("elseif " ++ c.text t ++ " then") :: indent (linesOf a) ++ elseLines b
  | [] => ["else"]
  | n :: rest => "else" :: indent (n.lines ++ linesOf rest)

end

end Node

namespace Routine

def header (r : Routine) : String :=
  let parameters := r.parameters.map r.locals.name ++ if r.variadic then ["..."] else []
  "function #" ++ toString r.id ++ " (" ++ ", ".intercalate parameters ++ ")"

def noteLines (r : Routine) : List String := r.notes.map fun n => "-- " ++ n.text

mutual

def lines : Routine → List String
  | ⟨id, parameters, variadic, body, locals, notes, children⟩ =>
    let r : Routine := ⟨id, parameters, variadic, body, locals, notes, []⟩
    r.header :: indent (r.noteLines ++ Node.linesOf locals body ++ childLines children) ++ ["end"]

def childLines : List (Except Failure Routine) → List String
  | [] => []
  | .ok r :: rest => r.lines ++ childLines rest
  | .error f :: rest => ("-- " ++ f.message) :: childLines rest

end

def outline (r : Routine) : String := String.join (r.lines.map (· ++ "\n"))

end Routine

end LuaLift
