namespace LuaLift.Path

def parts (path : String) : List String := path.splitOn "/"

def join (path name : String) : String :=
  if path.endsWith "/" then path ++ name else path ++ "/" ++ name

def isHere (path : String) : Bool :=
  (parts path).head? = some "." && (parts path).all fun p => p = "" || p = "."

def child (path name : String) : String := if isHere path then name else join path name

def descend (path : String) (names : List String) : String := names.foldl child path

def steps (path : String) : List (Nat × String) :=
  let start :=
    if path.startsWith "/" then [(0, "")]
    else if (parts path).head? = some "." then [(1, "")]
    else []
  let names := (parts path).filter fun p => p ≠ "" && p ≠ "."
  start ++ names.map fun p => (if p = ".." then 2 else 3, p)

def stepBefore (a b : Nat × String) : Bool := a.1 < b.1 || a.1 == b.1 && a.2 < b.2

def sort (paths : List String) : List String :=
  paths.mergeSort fun a b => !(steps b).lex (steps a) stepBefore

end LuaLift.Path
