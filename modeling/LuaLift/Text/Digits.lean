namespace LuaLift.Text

def digit? (base : Nat) (c : Char) : Option Nat :=
  let n :=
    if '0' ≤ c ∧ c ≤ '9' then some (c.toNat - '0'.toNat)
    else if 'a' ≤ c ∧ c ≤ 'z' then some (c.toNat - 'a'.toNat + 10)
    else if 'A' ≤ c ∧ c ≤ 'Z' then some (c.toNat - 'A'.toNat + 10)
    else none
  n.filter (· < base)

def ofDigits (base : Nat) (ds : List Nat) : Nat := ds.foldl (base * · + ·) 0

def natural? (cs : List Char) : Option Nat :=
  if cs.isEmpty then none else (cs.mapM (digit? 10)).map (ofDigits 10)

end LuaLift.Text
