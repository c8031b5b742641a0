import LuaLift.Command.Files

namespace LuaLift.Wildcard

inductive Piece
  | char (c : Char)
  | anyChar
  | anyText
  | anyFolders
  | choice (among : Bool) (ranges : List (Char × Char))
  deriving DecidableEq

abbrev Pattern := List Piece

inductive Flaw
  | stars
  | folders
  | brackets
  deriving DecidableEq

structure Fault where
  position : Nat
  flaw : Flaw
  deriving DecidableEq

def Flaw.message : Flaw → String
  | stars => "wildcards are either regular `*` or recursive `**`"
  | folders => "recursive wildcards must form a single path component"
  | brackets => "invalid range pattern"

def Fault.message (f : Fault) : String :=
  "Pattern syntax error near position " ++ toString f.position ++ ": " ++ f.flaw.message

def ranges : List Char → List (Char × Char)
  | a :: '-' :: b :: r => (a, b) :: ranges r
  | a :: r => (a, a) :: ranges r
  | [] => []

def bracketed? : List Char → Option (List Char)
  | c :: r => if r.contains ']' then some (c :: r.takeWhile (· ≠ ']')) else none
  | [] => none

def choice? : List Char → Option (Piece × Nat)
  | '!' :: r => (bracketed? r).map fun cs => (.choice false (ranges cs), cs.length + 2)
  | r => (bracketed? r).map fun cs => (.choice true (ranges cs), cs.length + 1)

/-- The piece that begins at a position, with the number of characters it has besides its first. Two
stars stand between slashes or the ends. -/
def piece (i : Nat) (before : Option Char) (c : Char) (r : List Char) : Except Fault (Piece × Nat) :=
  match c, r with
  | '*', '*' :: '*' :: _ => .error ⟨i + 2, .stars⟩
  | '*', '*' :: r =>
    if before.any (· ≠ '/') then .error ⟨i - 1, .folders⟩
    else
      match r with
      | [] => .ok (.anyFolders, 1)
      | '/' :: _ => .ok (.anyFolders, 2)
      | _ => .error ⟨i + 2, .folders⟩
  | '*', _ => .ok (.anyText, 0)
  | '?', _ => .ok (.anyChar, 0)
  | '[', r =>
    match choice? r with
    | some p => .ok p
    | none => .error ⟨i, .brackets⟩
  | c, _ => .ok (.char c, 0)

def piecesFrom (i : Nat) (before : Option Char) : Nat → List Char → Except Fault Pattern
  | _, [] => .ok []
  | n + 1, c :: r => piecesFrom (i + 1) (some c) n r
  | 0, c :: r => do
    let (p, n) ← piece i before c r
    return p :: (← piecesFrom (i + 1) (some c) n r)

def pattern (text : String) : Except Fault Pattern := piecesFrom 0 none 0 text.toList

def path (text : String) : Except Fault (String × List Pattern) := do
  let _ ← pattern text
  let cs := text.toList
  let slashes := cs.takeWhile (· = '/')
  let parts := Path.parts (String.ofList (cs.dropWhile (· = '/')))
  return (if slashes.isEmpty then "." else String.ofList slashes, ← parts.mapM pattern)

def Piece.accepts : Piece → Char → Bool
  | char c, x => c = x
  | choice among rs, x => (rs.any fun r => r.1 ≤ x && x ≤ r.2) == among
  | _, _ => true

def accepts : Pattern → List Char → Bool
  | [], cs => cs.isEmpty
  | .anyText :: ps, cs | .anyFolders :: ps, cs =>
    (List.range (cs.length + 1)).any fun n => accepts ps (cs.drop n)
  | _ :: _, [] => false
  | p :: ps, c :: cs => p.accepts c && accepts ps cs

def Piece.char? : Piece → Option Char
  | char c => some c
  | _ => none

def literal? (p : Pattern) : Option String := (p.mapM Piece.char?).map String.ofList

variable {m : Type → Type} [Monad m] (fs : Files m)

def inOrder {α : Type} [LT α] [DecidableLT α] (xs : List α) : List α :=
  xs.mergeSort fun a b => !decide (b < a)

/-- The folder itself and the one above it, which only a pattern that begins with a point matches. -/
def pointed (p : Pattern) : List String :=
  if p.head? = some (.char '.') then ["..", "."].filter fun s => accepts p s.toList else []

def search : List Pattern → String → m (List String)
  | [], here => return [here]
  | [.anyFolders] :: [.anyFolders] :: ps, here => search ([.anyFolders] :: ps) here
  | [[.anyFolders]], here => do
    (inOrder (← fs.below here)).map (Path.descend here) |>.filterM fs.isFolder
  | [.anyFolders] :: p :: ps, here => do
    let names := (inOrder (← fs.below here)).filter fun names =>
      names.getLast?.any fun name => accepts p name.toList
    let found ← names.mapM fun names => search ps (Path.descend here names)
    return found.flatten
  | p :: ps, here =>
    match literal? p with
    | some name => do
      let next := Path.child here name
      if ← if name = "." ∨ name = ".." then fs.isFolder here else fs.isThere next then search ps next
      else return []
    | none => do
      if !(← fs.isFolder here) then return []
      let special ← (pointed p).mapM fun name => search ps (Path.join here name)
      let names := (inOrder (← fs.names here)).filter fun name => accepts p name.toList
      let found ← names.mapM fun name => search ps (Path.child here name)
      return special.flatten ++ found.flatten

end LuaLift.Wildcard
