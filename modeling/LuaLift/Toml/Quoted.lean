import LuaLift.Text.Digits
import LuaLift.Toml.Reader

namespace LuaLift.Toml

open Text

/-- The closing quotes. Text of several lines may end in two quotes of its own. -/
def ending (quote : Char) (lines : Bool) : Reader (List Char)
  | [] => none
  | c :: r =>
    let quotes := min 5 ((c :: r).takeWhile (· = quote)).length
    if lines then
      if quotes < 3 then none
      else some (List.replicate (quotes - 3) quote, (c :: r).drop quotes)
    else if c = quote then some ([], r) else none

def pushing (c : Char) : Option (List Char × List Char) → Option (List Char × List Char) :=
  Option.map fun (cs, r) => (c :: cs, r)

def isDropped (lines : Bool) (c : Char) (r : List Char) : Bool :=
  lines && c = '\r' && r.head? = some '\n'

def isKept (lines : Bool) (c : Char) : Bool := isPlain c || lines && c = '\n'

def literalBody (lines : Bool) : Reader (List Char)
  | [] => none
  | c :: r =>
    match ending '\'' lines (c :: r) with
    | some e => some e
    | none =>
      if isDropped lines c r then literalBody lines r
      else if isKept lines c then pushing c (literalBody lines r)
      else none

inductive Pending
  | text
  | joining
  | escape
  | scalar (more value : Nat)

def escapes : List (Char × Char) :=
  [('b', '\x08'), ('t', '\t'), ('n', '\n'), ('f', '\x0c'), ('r', '\r'), ('"', '"'), ('\\', '\\')]

def basicBody (lines : Bool) : Pending → Reader (List Char)
  | _, [] => none
  | .escape, c :: r =>
    match escapes.lookup c with
    | some x => pushing x (basicBody lines .text r)
    | none =>
      if c = 'u' then basicBody lines (.scalar 3 0) r
      else if c = 'U' then basicBody lines (.scalar 7 0) r
      else if lines && (newline? (afterBlanks (c :: r))).isSome then basicBody lines .joining r
      else none
  | .scalar more value, c :: r =>
    match digit? 16 c, more with
    | none, _ => none
    | some d, more + 1 => basicBody lines (.scalar more (16 * value + d)) r
    | some d, 0 =>
      let n := 16 * value + d
      if n.isValidChar then pushing (.ofNat n) (basicBody lines .text r) else none
  | pending, c :: r =>
    if pending matches .joining && (isBlank c || (newline? (c :: r)).isSome) then
      basicBody lines .joining r
    else
      match ending '"' lines (c :: r) with
      | some e => some e
      | none =>
        if c = '\\' then basicBody lines .escape r
        else if isDropped lines c r then basicBody lines .text r
        else if isKept lines c then pushing c (basicBody lines .text r)
        else none

def afterOpening (cs : List Char) : List Char := (newline? cs).getD cs

def asString : Option (List Char × List Char) → Option (String × List Char) :=
  Option.map fun (cs, r) => (String.ofList cs, r)

def shortText : Reader String
  | '"' :: r => asString (basicBody false .text r)
  | '\'' :: r => asString (literalBody false r)
  | _ => none

def quotedText : Reader String
  | '"' :: '"' :: '"' :: r => asString (basicBody true .text (afterOpening r))
  | '\'' :: '\'' :: '\'' :: r => asString (literalBody true (afterOpening r))
  | cs => shortText cs

def isBare (c : Char) : Bool := c.isAlphanum || c = '-' || c = '_'

def keyPart (cs : List Char) : Option (String × List Char) :=
  match cs.takeWhile isBare with
  | [] => shortText cs
  | word => some (String.ofList word, cs.dropWhile isBare)

def keyWithin : Nat → Reader (List String)
  | 0, _ => none
  | n + 1, cs => do
    let (k, r) ← keyPart (afterBlanks cs)
    match afterBlanks r with
    | '.' :: r =>
      let (ks, r) ← keyWithin n r
      return (k :: ks, r)
    | r => return ([k], r)

def key : Reader (List String) := keyWithin 127

end LuaLift.Toml
