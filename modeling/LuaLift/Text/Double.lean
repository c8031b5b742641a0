namespace LuaLift.Text

def lastBit (n d : Nat) : Int :=
  let e : Int := n.log2 - d.log2
  let reaches := if 0 ≤ e then d * Nat.pow 2 e.toNat ≤ n else d ≤ n * Nat.pow 2 (-e).toNat
  max ((if reaches then e else e - 1) - 52) (-1074)

def roundHalfEven (n d : Nat) : Nat :=
  let q := n / d
  let r := n % d
  if 2 * r < d || (2 * r == d && q % 2 == 0) then q else q + 1

def magnitudeBits (n d : Nat) : Nat :=
  if n = 0 then 0
  else
    let e := lastBit n d
    let m := if 0 ≤ e then roundHalfEven n (d * Nat.pow 2 e.toNat) else roundHalfEven (n * Nat.pow 2 (-e).toNat) d
    min ((e + 1074).toNat * Nat.pow 2 52 + m) (2047 * Nat.pow 2 52)

def decimalBits (m : Nat) (e : Int) : Nat :=
  -- Far outside the range of doubles the power of ten is not computed.
  if m = 0 || (m.log2 / 3 + 332 : Nat) + e < 0 then 0
  else if 310 < e then 2047 * Nat.pow 2 52
  else if 0 ≤ e then magnitudeBits (m * Nat.pow 10 e.toNat) 1
  else magnitudeBits m (Nat.pow 10 (-e).toNat)

def ofDecimal (negative : Bool) (m : Nat) (e : Int) : Float :=
  let bits := decimalBits m e
  Float.ofBits (UInt64.ofNat (bits + if negative then Nat.pow 2 63 else 0))

end LuaLift.Text
