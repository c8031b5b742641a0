import LuaLift.Lift
import LuaLift.Listing.Value
import LuaLift.Text.Double

namespace LuaLift

def Value.plainNumber? : Value → Option Float
  | .float x => some x
  | .integer n => some (Text.ofDecimal (n < 0) n.natAbs 0)
  | _ => none

namespace Decode

open Value

def wordLimit : Nat := 65536
def addressLimit : Nat := 4294967296
def idLimit : Nat := 9223372036854775808

def word : Value → Option Nat := natBelow? wordLimit
def address : Value → Option Nat := natBelow? addressLimit
def id : Value → Option Nat := natBelow? idLimit

variable (m : Dialect)

def constant (v : Value) : Option Constant := do
  match ← v.variant? with
  | ("Nil", p) => if isBare m p then some .nil else none
  | ("Boolean", some v) => return .boolean (← v.boolean?)
  | ("Number", some v) => return .number (← m.number v)
  | ("String", some v) => return .string (← v.string?)
  | _ => none

def unaryOps : List (String × UnaryOp) := [("Not", .not), ("Minus", .minus), ("Length", .length)]

def binaryOps : List (String × BinaryOp) :=
  [("Add", .add), ("Sub", .sub), ("Mul", .mul), ("Div", .div), ("Mod", .mod), ("Pow", .pow),
    ("Concat", .concat), ("Eq", .eq), ("Neq", .ne), ("Lt", .lt), ("Le", .le), ("Gt", .gt),
    ("Ge", .ge), ("And", .and), ("Or", .or)]

def named {α : Type} (names : List (String × α)) (v : Value) : Option α := do
  let (name, p) ← v.variant?
  if isBare m p then names.lookup name else none

def exprWithin : Nat → Value → Option Expr
  | 0, _ => none
  | n + 1, v => do
    let expr := exprWithin n
    match ← v.variant? with
    | ("Slot", some v) => return .slot (← word v)
    | ("Local", some v) => return .var (← id v)
    | ("Upvalue", some v) => return .upvalue (← word v)
    | ("Global", some v) => return .global (← v.string?)
    | ("Constant", some v) => return .constant (← constant m v)
    | ("Vararg", p) => if isBare m p then some .vararg else none
    | ("Index", some v) => do
      let es ← v.choice? m ["table", "key"]
      return .index (← es.field "table" expr) (← es.field "key" expr)
    | ("Unary", some v) => do
      let es ← v.choice? m ["op", "operand"]
      return .unary (← es.field "op" (named m unaryOps)) (← es.field "operand" expr)
    | ("Binary", some v) => do
      let es ← v.choice? m ["op", "lhs", "rhs"]
      return .binary (← es.field "op" (named m binaryOps)) (← es.field "lhs" expr)
        (← es.field "rhs" expr)
    | ("Call", some v) => do
      let es ← v.choice? m ["function", "arguments"]
      return .call (← es.field "function" expr) (← es.fieldOr "arguments" [] (list? expr))
    | ("Closure", some v) => do
      let es ← v.choice? m ["prototype", "captures"]
      return .closure (← es.field "prototype" id) (← es.fieldOr "captures" [] (list? expr))
    | ("Table", some v) => do
      let es ← v.choice? m ["array", "records"]
      return .table (← es.fieldOr "array" [] (list? expr))
        (← es.fieldOr "records" [] (list? (pair? m expr)))
    | _ => none

def expr (v : Value) : Option Expr := exprWithin m v.depth v

def exprs : Value → Option (List Expr) := list? (expr m)

def assignment (v : Value) : Option Assignment := do
  let es ← v.record? m ["destinations", "expressions", "declares", "line"]
  return ⟨← es.field "destinations" (exprs m), ← es.field "expressions" (exprs m),
    ← es.fieldOr "declares" false boolean?, ← es.fieldOr "line" 0 address⟩

def stmt (v : Value) : Option Stmt := do
  match ← v.variant? with
  | ("Assignment", some v) => return .assign (← assignment m v)
  | ("Call", some v) => do
    let es ← v.choice? m ["function", "arguments", "line"]
    return .call (← es.field "function" (expr m)) (← es.fieldOr "arguments" [] (exprs m))
      (← es.fieldOr "line" 0 address)
  | ("Return", some v) => do
    let es ← v.choice? m ["values", "line"]
    return .ret (← es.fieldOr "values" [] (exprs m)) (← es.fieldOr "line" 0 address)
  | ("Declare", some v) => do
    let es ← v.choice? m ["locals"]
    return .declare (← es.field "locals" (list? id))
  | _ => none

def jump (v : Value) : Option Jump := do
  match ← v.variant? with
  | ("Unconditional", some v) => return .always (← id v)
  | ("Conditional", some v) => do
    let es ← v.choice? m ["condition", "true_target", "false_target"]
    return .branch (← es.field "condition" (expr m)) (← es.field "true_target" id)
      (← es.field "false_target" id)
  | ("End", p) => if isBare m p then some .leave else none
  | _ => none

def block (v : Value) : Option Block := do
  let es ← v.record? m ["id", "first_address", "last_address", "contents", "warp"]
  return ⟨← es.field "id" id, ← es.fieldOr "first_address" 0 address,
    ← es.fieldOr "last_address" 0 address, ← es.fieldOr "contents" [] (list? (stmt m)),
    ← es.field "warp" (jump m)⟩

def debugName (v : Value) : Option DebugName := do
  let es ← v.record? m ["slot", "name", "start_address", "end_address"]
  return ⟨← es.field "slot" word, ← es.field "name" string?, ← es.field "start_address" address,
    ← es.field "end_address" address⟩

def protoWithin : Nat → Value → Option Proto
  | 0, _ => none
  | n + 1, v => do
    let es ← v.record? m ["id", "parameters", "is_variadic", "blocks", "debug_locals", "children"]
    return ⟨← es.field "id" id, ← es.fieldOr "parameters" 0 word,
      ← es.fieldOr "is_variadic" false boolean?, ← es.field "blocks" (list? (block m)),
      ← es.fieldOr "debug_locals" [] (list? (debugName m)),
      ← es.fieldOr "children" [] (list? (protoWithin n))⟩

def proto (v : Value) : Option Proto := protoWithin m v.depth v

def listing (v : Value) : Option (List Proto) := do
  let es ← v.record? m ["functions"]
  es.fieldOr "functions" [] (list? (proto m))

def optionNames : List String :=
  ["max_liveness_rounds", "skip_temporary_elimination", "skip_short_circuit_folding",
    "skip_for_loop_recognition", "validate_each_pass"]

def options (v : Value) : Option Options := do
  let es ← v.record? m optionNames
  guard (es.all fun e => optionNames.contains e.1)
  return ⟨← es.fieldOr "max_liveness_rounds" 100 id,
    ← es.fieldOr "skip_temporary_elimination" false boolean?,
    ← es.fieldOr "skip_short_circuit_folding" false boolean?,
    ← es.fieldOr "skip_for_loop_recognition" false boolean?,
    ← es.fieldOr "validate_each_pass" false boolean?⟩

end Decode

end LuaLift
