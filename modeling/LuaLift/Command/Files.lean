import LuaLift.Command.Path

namespace LuaLift

inductive ReadError
  | missing
  | notFolder
  | isFolder
  | other (text : String)

def ReadError.message : ReadError → String
  | missing => "No such file or directory (os error 2)"
  | notFolder => "Not a directory (os error 20)"
  | isFolder => "Is a directory (os error 21)"
  | other text => text

structure Files (m : Type → Type) where
  isFolder : String → m Bool
  isThere : String → m Bool
  read : String → m (Except ReadError String)
  names : String → m (List String)
  below : String → m (List (List String))

structure FileTree where
  texts : List (List String × String)

namespace FileTree

def ofPaths (texts : List (String × String)) : FileTree :=
  ⟨texts.map fun (path, text) => ((Path.parts path).filter fun p => p ≠ "" && p ≠ ".", text)⟩

variable (t : FileTree)

def under (folder : List String) : List (List String) :=
  let held := t.texts.filterMap fun (names, _) =>
    if folder.isPrefixOf names then some (names.drop folder.length) else none
  (held.flatMap fun names => (List.range names.length).map fun n => names.take (n + 1)).eraseDups

def isFolder (names : List String) : Bool := names.isEmpty || !(t.under names).isEmpty

def text? (names : List String) : Option String := t.texts.lookup names

def locate : List String → List String → Except ReadError (List String)
  | here, [] => .ok here
  | here, p :: rest =>
    if !t.isFolder here then .error .notFolder
    else if p = "" ∨ p = "." then locate here rest
    else if p = ".." then if here.isEmpty then .error .missing else locate here.dropLast rest
    else if t.isFolder (here ++ [p]) || (t.text? (here ++ [p])).isSome then
      locate (here ++ [p]) rest
    else .error .missing

def find (path : String) : Except ReadError (List String) :=
  if path.isEmpty then .error .missing else t.locate [] (Path.parts path)

def read (path : String) : Except ReadError String := do
  let names ← t.find path
  match t.text? names with
  | some text => .ok text
  | none => .error .isFolder

def below (path : String) : List (List String) := ((t.find path).toOption.map t.under).getD []

def files : Files Id where
  isFolder path := (t.find path).toOption.any t.isFolder
  isThere path := (t.find path).isOk
  read path := t.read path
  names path := (t.below path).filterMap fun
    | [name] => some name
    | _ => none
  below path := t.below path

end FileTree

end LuaLift
