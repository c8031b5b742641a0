import LuaLift.Syntax.Expr

namespace LuaLift

inductive LocalKind where
  | parameter
  | plain
  | loop
  deriving Repr, DecidableEq

structure Local where
  slot : Slot
  name : String
  kind : LocalKind
  deriving Repr, DecidableEq

structure Locals where
  entries : List Local
  deriving Repr, DecidableEq

namespace Locals

def empty : Locals := ⟨[]⟩

instance : EmptyCollection Locals := ⟨empty⟩
instance : Inhabited Locals := ⟨empty⟩

def size (t : Locals) : Nat := t.entries.length

def push (t : Locals) (l : Local) : Locals := ⟨t.entries ++ [l]⟩

def get? (t : Locals) (v : LocalId) : Option Local := t.entries[v]?

def kind? (t : Locals) (v : LocalId) : Option LocalKind := (t.get? v).map (·.kind)

def slot? (t : Locals) (v : LocalId) : Option Slot := (t.get? v).map (·.slot)

def setKind (t : Locals) (v : LocalId) (kind : LocalKind) : Locals :=
  ⟨t.entries.modify v fun l => { l with kind }⟩

def label (v : LocalId) : String := "L" ++ toString v

def name (t : Locals) (v : LocalId) : String := ((t.get? v).map (·.name)).getD (label v)

def bySlot (t : Locals) (s : Slot) : List LocalId :=
  (List.range t.size).filter fun v => t.slot? v = some s

end Locals

end LuaLift
