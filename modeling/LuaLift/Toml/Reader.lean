namespace LuaLift.Toml

abbrev Reader (α : Type) := List Char → Option (α × List Char)

def isPlain (c : Char) : Bool := c = '\t' || (' ' ≤ c && c ≠ '\x7f')

def isBlank (c : Char) : Bool := c = ' ' || c = '\t'

def afterBlanks (cs : List Char) : List Char := cs.dropWhile isBlank

def newline? : List Char → Option (List Char)
  | '\n' :: r => some r
  | '\r' :: '\n' :: r => some r
  | _ => none

def afterComment : List Char → List Char
  | '#' :: r => r.dropWhile isPlain
  | cs => cs

def lineEnd? (cs : List Char) : Option (List Char) :=
  match afterComment (afterBlanks cs) with
  | [] => some []
  | cs => newline? cs

def afterGap (inComment : Bool) : List Char → List Char
  | [] => []
  | '\n' :: r => afterGap false r
  | '\r' :: '\n' :: r => afterGap false r
  | c :: r =>
    if inComment then if isPlain c then afterGap true r else c :: r
    else if isBlank c then afterGap false r
    else if c = '#' then afterGap true r
    else c :: r

end LuaLift.Toml
