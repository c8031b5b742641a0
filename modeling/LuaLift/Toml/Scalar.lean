import LuaLift.Listing.Value
import LuaLift.Text.Double
import LuaLift.Toml.Quoted

namespace LuaLift.Toml

open Text

def moreDigits (base : Nat) : Reader (List Nat)
  | '_' :: c :: r => do
    let d ← digit? base c
    let (ds, r) ← moreDigits base r
    return (d :: ds, r)
  | ['_'] => none
  | c :: r =>
    match digit? base c with
    | none => some ([], c :: r)
    | some d => (moreDigits base r).map fun (ds, r) => (d :: ds, r)
  | [] => some ([], [])

def digits (base : Nat) : Reader (List Nat)
  | [] => none
  | c :: r => do
    let d ← digit? base c
    let (ds, r) ← moreDigits base r
    return (d :: ds, r)

def wholeDigits : Reader (List Nat)
  | '0' :: r => some ([0], r)
  | cs => digits 10 cs

def sign : List Char → Option Bool × List Char
  | '+' :: r => (some false, r)
  | '-' :: r => (some true, r)
  | cs => (none, cs)

def exponent? : List Char → Option (Option (Int × List Char))
  | c :: r =>
    if c = 'e' ∨ c = 'E' then do
      let (negative, r) := sign r
      let (ds, r) ← digits 10 r
      let n := ofDigits 10 ds
      return some (if negative = some true then -n else n, r)
    else some none
  | [] => some none

def fraction? : List Char → Option (Option (List Nat × List Char))
  | '.' :: r => (digits 10 r).map some
  | _ => some none

def word64? (n : Int) : Option Value :=
  if -Nat.pow 2 63 ≤ n ∧ n < Nat.pow 2 63 then some (.integer n) else none

/-- A positive number past all doubles is refused, a negative one becomes infinite. -/
def double? (negative : Bool) (m : Nat) (e : Int) : Option Value :=
  let x := ofDecimal negative m e
  if x.isInf && !negative then none else some (.float x)

def decimal (negative : Bool) : Reader Value := fun cs => do
  let (whole, cs) ← wholeDigits cs
  let fraction ← fraction? cs
  let (places, cs) := fraction.getD ([], cs)
  let exponent ← exponent? cs
  let (e, cs) := exponent.getD (0, cs)
  let m := ofDigits 10 (whole ++ places)
  let v ←
    if fraction.isNone && exponent.isNone then word64? (if negative then -m else m)
    else double? negative m (e - places.length)
  return (v, cs)

def radix (base : Nat) : Reader Value := fun cs => do
  let (ds, r) ← digits base cs
  return (← word64? (ofDigits base ds), r)

def unsigned (negative : Bool) : Reader Value
  | 'i' :: 'n' :: 'f' :: r => some (.float (if negative then -1.0 / 0.0 else 1.0 / 0.0), r)
  | 'n' :: 'a' :: 'n' :: r => some (.float (0.0 / 0.0), r)
  | cs => decimal negative cs

def number : Reader Value
  | '0' :: 'x' :: r => radix 16 r
  | '0' :: 'o' :: r => radix 8 r
  | '0' :: 'b' :: r => radix 2 r
  | cs => let (negative, cs) := sign cs; unsigned (negative = some true) cs

def twoDigits (low high : Nat) : Reader Nat
  | a :: b :: r => do
    let n := 10 * (← digit? 10 a) + (← digit? 10 b)
    if low ≤ n ∧ n ≤ high then some (n, r) else none
  | _ => none

def afterChar? (x : Char) : List Char → Option (List Char)
  | c :: r => if c = x then some r else none
  | [] => none

/-- Every month may have 31 days. -/
def afterDay? (cs : List Char) : Option (List Char) := do
  let (_, cs) ← twoDigits 0 99 cs
  let (_, cs) ← twoDigits 0 99 cs
  let (_, cs) ← twoDigits 1 12 (← afterChar? '-' cs)
  let (_, cs) ← twoDigits 1 31 (← afterChar? '-' cs)
  return cs

def afterTime? (cs : List Char) : Option (List Char) := do
  let (_, cs) ← twoDigits 0 23 cs
  let (_, cs) ← twoDigits 0 59 (← afterChar? ':' cs)
  let (_, cs) ← twoDigits 0 60 (← afterChar? ':' cs)
  match cs with
  | '.' :: r =>
    let rest := r.dropWhile Char.isDigit
    if rest.length < r.length then some rest else none
  | cs => some cs

def afterOffset (cs : List Char) : List Char :=
  let offset := fun r => do
    let (_, r) ← twoDigits 0 23 r
    let (_, r) ← twoDigits 0 59 (← afterChar? ':' r)
    return r
  match cs with
  | 'Z' :: r | 'z' :: r => r
  | '+' :: r | '-' :: r => (offset r).getD cs
  | _ => cs

def afterDate? (cs : List Char) : Option (List Char) :=
  match afterDay? cs with
  | none => afterTime? cs
  | some r =>
    match r with
    | c :: t => some (if c ∈ ['T', 't', ' '] then ((afterTime? t).map afterOffset).getD r else r)
    | [] => some []

def scalar : Reader Value
  | 't' :: 'r' :: 'u' :: 'e' :: r => some (.boolean true, r)
  | 'f' :: 'a' :: 'l' :: 's' :: 'e' :: r => some (.boolean false, r)
  | cs =>
    match quotedText cs, afterDate? cs with
    | some (s, r), _ => some (.string s, r)
    | none, some r => some (.date, r)
    | none, none => number cs

end LuaLift.Toml
