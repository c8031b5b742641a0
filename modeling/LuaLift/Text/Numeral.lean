/-!
The text of a number: the fewest digits that read back as the same double, written positionally.
-/

namespace LuaLift.Text

structure Basin where
  low : Nat
  value : Nat
  high : Nat
  closed : Bool
  deriving Repr, DecidableEq

namespace Basin

def contains (b : Basin) (x : Nat) : Bool :=
  if b.closed then b.low ≤ x && x ≤ b.high else b.low < x && x < b.high

/-- The point of the coarsest decimal grid that lies in the basin; a tie goes up. -/
def shortest (b : Basin) : Nat → Nat
  | 0 => b.value
  | j + 1 =>
    let unit := Nat.pow 10 (j + 1)
    let below := b.value / unit * unit
    let above := below + unit
    match b.contains below, b.contains above with
    | true, true => if 2 * (b.value - below) < unit then below else above
    | true, false => below
    | false, true => above
    | false, false => b.shortest j

end Basin

def padded (n width : Nat) : List Char :=
  let digits := Nat.toDigits 10 n
  List.replicate (width - digits.length) '0' ++ digits

def positional (whole scale : Nat) : List Char :=
  let fraction := if scale = 0 then [] else
    ((padded (whole % Nat.pow 10 scale) scale).reverse.dropWhile (· == '0')).reverse
  Nat.toDigits 10 (whole / Nat.pow 10 scale) ++ if fraction.isEmpty then [] else '.' :: fraction

def magnitude (exponent fraction : Nat) : List Char :=
  let e := max exponent 1
  let m := if exponent = 0 then fraction else fraction + Nat.pow 2 52
  let unit := Nat.pow 5 (1077 - e) * Nat.pow 2 (e - 1077)
  let gap := if fraction = 0 && exponent > 1 then 1 else 2
  let basin : Basin := ⟨(4 * m - gap) * unit, 4 * m * unit, (4 * m + 2) * unit, m % 2 = 0⟩
  positional (basin.shortest ((Nat.toDigits 10 basin.value).length - 1)) (1077 - e)

def numeral (x : Float) : String :=
  let bits := x.toBits.toNat
  let exponent := bits / Nat.pow 2 52 % 2048
  let fraction := bits % Nat.pow 2 52
  if exponent = 2047 && fraction ≠ 0 then "NaN" else
    let sign := if bits / Nat.pow 2 63 = 0 then [] else ['-']
    let body :=
      if exponent = 2047 then ['i', 'n', 'f']
      else if exponent = 0 && fraction = 0 then ['0']
      else magnitude exponent fraction
    String.ofList (sign ++ body)

end LuaLift.Text
