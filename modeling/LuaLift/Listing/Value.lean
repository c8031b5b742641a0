namespace LuaLift

inductive Value where
  | string (s : String)
  | integer (n : Int)
  | float (x : Float)
  | boolean (b : Bool)
  | array (items : List Value)
  | table (entries : List (String × Value))
  | date
  | null
  deriving Repr, Inhabited

namespace Value

abbrev Entries := List (String × Value)

def Entries.find? (es : Entries) (key : String) : Option Value := es.lookup key

mutual

def depth : Value → Nat
  | array items => depthOf items + 1
  | table entries => depthOfEntries entries + 1
  | _ => 1

def depthOf : List Value → Nat
  | [] => 0
  | v :: rest => max v.depth (depthOf rest)

def depthOfEntries : List (String × Value) → Nat
  | [] => 0
  | (_, v) :: rest => max v.depth (depthOfEntries rest)

end

def string? : Value → Option String
  | string s => some s
  | _ => none

def boolean? : Value → Option Bool
  | boolean b => some b
  | _ => none

def natBelow? (bound : Nat) : Value → Option Nat
  | integer n => if 0 ≤ n ∧ n < bound then some n.toNat else none
  | _ => none

def list? {α : Type} (f : Value → Option α) : Value → Option (List α)
  | array items => items.mapM f
  | _ => none

end Value

structure Dialect where
  number : Value → Option Float
  positional : Bool
  closedChoices : Bool

namespace Value

variable (m : Dialect)

/-- The entries of a record with the given fields. A date stands for a record that has none of them. -/
def record? (fields : List String) : Value → Option Entries
  | table entries => some entries
  | array items => if m.positional then some (fields.zip items) else none
  | date => some []
  | _ => none

def choice? (fields : List String) (v : Value) : Option Entries :=
  (v.record? m fields).filter fun es => !m.closedChoices || es.all fun e => fields.contains e.1

def variant? : Value → Option (String × Option Value)
  | string s => some (s, none)
  | table [(name, v)] => some (name, some v)
  | _ => none

def isBare (m : Dialect) : Option Value → Bool
  | none => true
  | some (table []) => m.closedChoices
  | _ => false

def pair? {α : Type} (f : Value → Option α) : Value → Option (α × α)
  | array [a, b] => do return (← f a, ← f b)
  | array (a :: b :: _) => if m.positional then do return (← f a, ← f b) else none
  | _ => none

namespace Entries

variable {α : Type}

def field (es : Entries) (key : String) (f : Value → Option α) : Option α := (es.find? key).bind f

def fieldOr (es : Entries) (key : String) (default : α) (f : Value → Option α) : Option α :=
  match es.find? key with
  | none => some default
  | some v => f v

end Entries

end Value

end LuaLift
