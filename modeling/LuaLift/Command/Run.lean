import LuaLift.Command.Arguments
import LuaLift.Command.Wildcard
import LuaLift.Listing.Text
import LuaLift.Tree.Outline

namespace LuaLift

mutual

def Routine.failures : Routine → List Failure
  | ⟨_, _, _, _, _, _, children⟩ => Routine.childFailures children

def Routine.childFailures : List (Except Failure Routine) → List Failure
  | [] => []
  | .ok r :: rest => r.failures ++ childFailures rest
  | .error f :: rest => f :: childFailures rest

end

namespace Command

structure Outcome where
  code : Nat
  stdout : String
  stderr : String
  deriving Repr, DecidableEq

structure Report where
  outlines : List String
  failures : List (String × Failure)

namespace Report

def empty : Report := ⟨[], []⟩

def add (o : Options) (path : String) (r : Report) (p : Proto) : Report :=
  match p.lift o with
  | .ok q => ⟨r.outlines ++ [q.outline], r.failures ++ q.failures.map (path, ·)⟩
  | .error f => ⟨r.outlines, r.failures ++ [(path, f)]⟩

def stdout (r : Report) : String := String.join r.outlines

def failureLine : String × Failure → String
  | (path, f) => path ++ ": " ++ f.message ++ "\n"

def outcome (r : Report) : Outcome :=
  if r.failures.isEmpty then ⟨0, r.stdout, ""⟩
  else
    let heading := toString r.failures.length ++ " functions failed:\n"
    ⟨2, r.stdout, heading ++ String.join (r.failures.map failureLine)⟩

def stopped (r : Report) (fault : String) : Outcome :=
  ⟨1, r.stdout, (fault.splitOn "\n").headD ""⟩

end Report

def usage : String := "usage: lualift --input PATH [--options PATH] [FLAG ...]"

variable {m : Type → Type} [Monad m] (fs : Files m)

def listingsBelow (folder : String) : String := Path.join (Path.join folder "**") "*.toml"

def listings (input : String) : m (Except String (List String)) := do
  if !(← fs.isFolder input) then return .ok [input]
  match Wildcard.path (listingsBelow input) with
  | .error f => return .error f.message
  | .ok (start, patterns) =>
    let found ← Wildcard.search fs patterns start
    if found.isEmpty then return .error ("no listings found under " ++ input)
    return .ok (Path.sort found)

def readOptions (args : Arguments) : m (Except String Options) := do
  match args.optionsFile with
  | none => return .ok args.options
  | some path =>
    match ← fs.read path with
    | .error e => return .error ("cannot read " ++ path ++ ": " ++ e.message)
    | .ok text =>
      match Options.ofText? text with
      | none => return .error ("invalid pipeline options in " ++ path)
      | some o => return .ok o

def liftListings (o : Options) : Report → List String → m Outcome
  | r, [] => return r.outcome
  | r, path :: rest => do
    match ← fs.read path with
    | .error _ => return r.stopped ("cannot read " ++ path)
    | .ok text =>
      match Proto.ofListing? text with
      | none => return r.stopped ("invalid listing " ++ path)
      | some ps => liftListings o (ps.foldl (Report.add o path) r) rest

def run (args : List String) : m Outcome := do
  match Arguments.ofList? args with
  | none => return ⟨2, "", usage⟩
  | some args =>
    match ← readOptions fs args with
    | .error fault => return Report.empty.stopped fault
    | .ok o =>
      match ← listings fs args.input with
      | .error fault => return Report.empty.stopped fault
      | .ok paths => liftListings fs o .empty paths

end Command

end LuaLift
