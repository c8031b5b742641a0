import LuaLift.Command.Run

namespace LuaLift.Disk

def readError : IO.Error → ReadError
  | .noFileOrDirectory .. => .missing
  | .inappropriateType .. => .notFolder
  | e => .other e.toString

def isFolder (path : String) : IO Bool := do
  if path.isEmpty then return false
  ((← IO.currentDir) / path).isDir

def isThere (path : String) : IO Bool := do
  if path.isEmpty then return false
  ((← IO.currentDir) / path).pathExists

def names (path : String) : IO (List String) := do
  return (← ((← IO.currentDir) / path).readDir).toList.map (·.fileName)

def read (path : String) : IO (Except ReadError String) := do
  if path.isEmpty then return .error .missing
  if ← isFolder path then return .error .isFolder
  try return .ok (← IO.FS.readFile ((← IO.currentDir) / path))
  catch e => return .error (readError e)

partial def below (path : String) : IO (List (List String)) := do
  if !(← isFolder path) then return []
  let inside ← (← names path).mapM fun name => do
    return [name] :: (← below (Path.join path name)).map (name :: ·)
  return inside.flatten

def files : Files IO := ⟨isFolder, isThere, read, names, below⟩

end LuaLift.Disk

def main (args : List String) : IO UInt32 := do
  let outcome ← LuaLift.Command.run LuaLift.Disk.files args
  IO.print outcome.stdout
  IO.eprint outcome.stderr
  unless outcome.stderr.isEmpty || outcome.stderr.endsWith "\n" do IO.eprintln ""
  return outcome.code.toUInt32
