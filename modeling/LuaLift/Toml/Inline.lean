import LuaLift.Toml.Scalar

namespace LuaLift.Toml

def insert (v : Value) : List String → Value.Entries → Option Value.Entries
  | [], _ => none
  | [k], es => if (es.find? k).isSome then none else some (es ++ [(k, v)])
  | k :: ks, es =>
    match es.find? k with
    | none => do return es ++ [(k, .table (← insert v ks []))]
    | some (.table t) => do
      let t ← insert v ks t
      return es.map fun e => if e.1 = k then (k, .table t) else e
    | some _ => none

variable (value : Reader Value)

def items : Nat → Reader (List Value)
  | 0, _ => none
  | n + 1, cs =>
    match afterGap false cs with
    | ']' :: r => some ([], r)
    | cs => do
      let (v, r) ← value cs
      match afterGap false r with
      | ']' :: r => return ([v], r)
      | ',' :: r => do
        let (vs, r) ← items n r
        return (v :: vs, r)
      | _ => none

def members : Nat → Value.Entries → Reader Value.Entries
  | 0, _, _ => none
  | n + 1, es, cs => do
    let (k, r) ← key cs
    let (v, r) ← value (afterBlanks (← afterChar? '=' r))
    let es ← insert v k es
    match afterBlanks r with
    | '}' :: r => return (es, r)
    | ',' :: r => members n es r
    | _ => none

def valueWithin : Nat → Reader Value
  | 0, cs => match cs with
    | '[' :: _ | '\x7b' :: _ => none
    | cs => scalar cs
  | n + 1, cs =>
    match cs with
    | '[' :: r => do
      let (vs, r) ← items (valueWithin n) cs.length r
      return (.array vs, r)
    | '\x7b' :: r =>
      match afterBlanks r with
      | '\x7d' :: r => return (.table [], r)
      | _ => do
        let (es, r) ← members (valueWithin n) cs.length [] r
        return (.table es, r)
    | cs => scalar cs

def inline : Reader Value := valueWithin 127

end LuaLift.Toml
