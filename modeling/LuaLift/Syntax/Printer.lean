import LuaLift.Syntax.Locals
import LuaLift.Syntax.Stmt
import LuaLift.Text.Numeral
import LuaLift.Text.Quoted

/-!
The text of expressions and statements. Binary operations and closures stand in parentheses when they
are operands; a unary operation does so only to the left of a power.
-/

namespace LuaLift

def Constant.text : Constant → String
  | nil => "nil"
  | boolean b => if b then "true" else "false"
  | number x => Text.numeral x
  | string s => Text.quoted s

namespace Expr

def isUnary : Expr → Bool
  | unary .. => true
  | _ => false

def needsParentheses : Expr → Bool
  | binary .. | closure .. => true
  | _ => false

def fieldName? : Expr → Option String
  | constant (.string s) => if Text.isIdentifier s then some s else none
  | _ => none

def enclosed (wrap : Bool) (s : String) : String := if wrap then "(" ++ s ++ ")" else s

variable (t : Locals)

mutual

def text : Expr → String
  | slot s => "@" ++ toString s
  | var v => t.name v
  | upvalue n => "upvalue" ++ toString n
  | global g => g
  | constant c => c.text
  | vararg => "..."
  | index e k =>
    enclosed e.needsParentheses e.text ++
      match k.fieldName? with
      | some s => "." ++ s
      | none => "[" ++ k.text ++ "]"
  | unary op e => op.text ++ enclosed e.needsParentheses e.text
  | binary op a b =>
    enclosed (a.needsParentheses || op == .pow && a.isUnary) a.text ++ " " ++ op.text ++ " " ++
      enclosed b.needsParentheses b.text
  | call f as => enclosed f.needsParentheses f.text ++ "(" ++ ", ".intercalate (texts as) ++ ")"
  | closure p cs =>
    "closure " ++ toString p ++
      if cs.isEmpty then "" else " [" ++ ", ".intercalate (texts cs) ++ "]"
  | table as rs => "\x7b" ++ ", ".intercalate (texts as ++ recordTexts rs) ++ "\x7d"

def texts : List Expr → List String
  | [] => []
  | e :: es => e.text :: texts es

def recordTexts : List (Expr × Expr) → List String
  | [] => []
  | (k, v) :: rs => ("[" ++ k.text ++ "] = " ++ v.text) :: recordTexts rs

end

def listText (es : List Expr) : String := ", ".intercalate (texts t es)

end Expr

namespace Stmt

variable (t : Locals)

def text : Stmt → String
  | assign a =>
    (if a.declares then "local " else "") ++ Expr.listText t a.targets ++ " = " ++
      Expr.listText t a.values
  | call f as _ => (Expr.call f as).text t
  | ret vs _ => "return" ++ if vs.isEmpty then "" else " " ++ Expr.listText t vs
  | declare vs => "local " ++ ", ".intercalate (vs.map t.name)

end Stmt

end LuaLift
