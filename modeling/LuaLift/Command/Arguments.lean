import LuaLift.Lift
import LuaLift.Text.Digits

namespace LuaLift

inductive Flag
  | input
  | options
  | rounds
  | verbose
  | trace
  | skipInlining
  | skipTestFolding
  | skipForLoops
  | checkStages
  deriving DecidableEq

namespace Flag

def takesValue : Flag → Bool
  | input | options | rounds => true
  | _ => false

def words : List (String × Flag) :=
  [("input", input), ("options", options), ("max-liveness-rounds", rounds), ("verbose", verbose),
    ("trace", trace), ("skip-temporary-elimination", skipInlining),
    ("skip-short-circuit-folding", skipTestFolding), ("skip-for-loop-recognition", skipForLoops),
    ("validate-each-pass", checkStages)]

def letters : List (Char × Flag) := [('i', input), ('o', options), ('v', verbose)]

end Flag

abbrev Settings := List (Flag × String)

namespace Settings

def ofWord (cs : List Char) : Option (Settings × Option Flag) := do
  let f ← Flag.words.lookup (String.ofList (cs.takeWhile (· ≠ '=')))
  match f.takesValue, cs.dropWhile (· ≠ '=') with
  | false, [] => some ([(f, "")], none)
  | true, [] => some ([], some f)
  | true, _ :: v => some ([(f, String.ofList v)], none)
  | false, _ => none

def ofLetters : List Char → Option (Settings × Option Flag)
  | [] => some ([], none)
  | c :: cs => do
    let f ← Flag.letters.lookup c
    match f.takesValue, cs with
    | false, cs => return (← ofLetters cs).map ((f, "") :: ·) id
    | true, [] => some ([], some f)
    | true, '=' :: v => some ([(f, String.ofList v)], none)
    | true, v => some ([(f, String.ofList v)], none)

def ofArgument (a : String) : Option (Settings × Option Flag) :=
  match a.toList with
  | '-' :: '-' :: cs => ofWord cs
  | '-' :: c :: cs => ofLetters (c :: cs)
  | _ => none

def isValue (a : String) : Bool := a = "-" || a.toList.head? ≠ some '-'

def read : Option Flag → List String → Option Settings
  | none, [] | none, ["--"] => some []
  | some _, [] => none
  | some f, a :: rest => do
    guard (isValue a)
    return (f, a) :: (← read none rest)
  | none, a :: rest => do
    let (given, waiting) ← ofArgument a
    return given ++ (← read waiting rest)

def has (s : Settings) (f : Flag) : Bool := (s.lookup f).isSome

def rounds? (s : Settings) : Option Nat :=
  match (s.lookup .rounds).map String.toList with
  | none => some ({} : Options).maxRounds
  | some ('+' :: cs) => (Text.natural? cs).filter (· < Nat.pow 2 64)
  | some cs => (Text.natural? cs).filter (· < Nat.pow 2 64)

end Settings

structure Arguments where
  input : String
  optionsFile : Option String
  options : Options

def Arguments.ofList? (args : List String) : Option Arguments := do
  let s ← Settings.read none args
  guard (s.map (·.1)).Nodup
  guard (s.all fun (f, v) => f.takesValue → v ≠ "")
  return {
    input := ← s.lookup .input
    optionsFile := s.lookup .options
    options := {
      maxRounds := ← s.rounds?
      skipInlining := s.has .skipInlining
      skipTestFolding := s.has .skipTestFolding
      skipForLoops := s.has .skipForLoops
      checkStages := s.has .checkStages } }

end LuaLift
