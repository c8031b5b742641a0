import LuaLift.Toml.Inline

namespace LuaLift.Toml

inductive Line
  | entry (key : List String) (v : Value)
  | table (key : List String)
  | element (key : List String)

namespace Line

def read : Reader Line
  | '[' :: '[' :: r => do
    let (k, r) ← key r
    return (.element k, ← afterChar? ']' (← afterChar? ']' r))
  | '[' :: r => do
    let (k, r) ← key r
    return (.table k, ← afterChar? ']' r)
  | cs => do
    let (k, r) ← key cs
    let (v, r) ← inline (afterBlanks (← afterChar? '=' r))
    return (.entry k v, r)

def allWithin : Nat → List Char → Option (List Line)
  | _, [] => some []
  | 0, _ => none
  | n + 1, cs =>
    match lineEnd? cs with
    | some r => allWithin n r
    | none => do
      let (l, r) ← read (afterBlanks cs)
      return l :: (← allWithin n (← lineEnd? r))

def all (cs : List Char) : Option (List Line) := allWithin cs.length cs

end Line

inductive Origin
  | header
  | passed
  | dotted
  deriving DecidableEq

inductive Item
  | value (v : Value)
  | table (origin : Origin) (entries : List (String × Item))
  /-- Only the last of a list of tables can still grow. -/
  | tables (earlier : List Value) (last : List (String × Item))

namespace Item

abbrev Entries := List (String × Item)

mutual

def toValue : Item → Value
  | value v => v
  | table _ es => .table (entriesValue es)
  | tables earlier last => .array (earlier ++ [.table (entriesValue last)])

def entriesValue : List (String × Item) → Value.Entries
  | [] => []
  | (k, i) :: rest => (k, i.toValue) :: entriesValue rest

end

namespace Entries

def find? (es : Entries) (k : String) : Option Item := es.lookup k

def put (es : Entries) (k : String) (i : Item) : Entries :=
  if (es.find? k).isSome then es.map fun e => if e.1 = k then (k, i) else e else es ++ [(k, i)]

def alter (f : Entries → Option Entries) : List String → Entries → Option Entries
  | [], es => f es
  | k :: ks, es =>
    match es.find? k with
    | none => do return es.put k (.table .passed (← alter f ks []))
    | some (.table o t) => do return es.put k (.table o (← alter f ks t))
    | some (.tables ts t) => do return es.put k (.tables ts (← alter f ks t))
    | some (.value _) => none

/-- A header may name a table once, and none that a dotted key made. -/
def openTable (k : String) (es : Entries) : Option Entries :=
  match es.find? k with
  | none => some (es.put k (.table .header []))
  | some (.table .passed t) => some (es.put k (.table .header t))
  | _ => none

def openElement (k : String) (es : Entries) : Option Entries :=
  match es.find? k with
  | none => some (es.put k (.tables [] []))
  | some (.tables ts t) => some (es.put k (.tables (ts ++ [.table (entriesValue t)]) []))
  | _ => none

def insert (v : Value) : List String → Bool → Entries → Option Entries
  | [], _, _ => none
  | [k], isOpen, es => if isOpen && (es.find? k).isNone then some (es.put k (.value v)) else none
  | k :: ks, _, es =>
    match es.find? k with
    | none => do return es.put k (.table .dotted (← insert v ks true []))
    | some (.table .header _) => none
    | some (.table o t) => do return es.put k (.table o (← insert v ks (o = .dotted) t))
    | some (.tables ts t) => do return es.put k (.tables ts (← insert v ks false t))
    | some (.value _) => none

end Entries

end Item

structure Draft where
  root : Item.Entries
  path : List String

namespace Draft

def empty : Draft := ⟨[], []⟩

def atHeader (d : Draft) (f : String → Item.Entries → Option Item.Entries) (k : List String) :
    Option Draft := do
  return ⟨← d.root.alter (f (← k.getLast?)) k.dropLast, k⟩

def add (d : Draft) : Line → Option Draft
  | .entry k v => do return { d with root := ← d.root.alter (·.insert v k true) d.path }
  | .table k => d.atHeader Item.Entries.openTable k
  | .element k => d.atHeader Item.Entries.openElement k

end Draft

def withoutMark : List Char → List Char
  | '\ufeff' :: r => r
  | cs => cs

def document? (text : String) : Option Value := do
  let lines ← Line.all (withoutMark text.toList)
  let d ← lines.foldlM Draft.add .empty
  return .table (Item.entriesValue d.root)

end LuaLift.Toml
