import GraphRules.Text.Path

/-! A directory of files in memory, and how paths lead to them. -/
namespace GraphRules

inductive FileError where
  | missing
  | notDirectory
  | isDirectory
  | nameTooLong
  | other (message : String)
  deriving DecidableEq, Inhabited

def FileError.message : FileError → String
  | .missing => "No such file or directory (os error 2)"
  | .notDirectory => "Not a directory (os error 20)"
  | .isDirectory => "Is a directory (os error 21)"
  | .nameTooLong => "File name too long (os error 36)"
  | .other m => m

/-- A location as seen from the directory: the names on the way, after steps up or the root of all
directories. -/
abbrev Location := List String

namespace Location

def isAbove (p : Location) : Bool := p.all fun name => name = ".." || name = "/"

def parent (p : Location) : Location :=
  if p = ["/"] then p else if p.isAbove then p ++ [".."] else p.dropLast

def step (p : Location) (name : String) : Location :=
  if name = "" || name = "." then p else if name = ".." then p.parent else p ++ [name]

def start (path : String) : Location := if path.toList.head? = some '/' then ["/"] else []

def ofPath (path : String) : Location := (path.splitOn "/").foldl step (start path)

end Location

/-- Files with their texts. A directory is there if a file is in it. -/
structure Files where
  entries : List (String × String) := []
  deriving DecidableEq, Inhabited

namespace Files

def nameLimit : Nat := 255

def pathLimit : Nat := 4095

def nullDevice : Location := ["/", "dev", "null"]

def at? (fs : Files) (p : Location) : Option String :=
  if p = nullDevice then some ""
  else (fs.entries.find? fun e => Location.ofPath e.1 = p).map Prod.snd

def find? (fs : Files) (path : String) : Option String := fs.at? (.ofPath path)

def isDirectory (fs : Files) (p : Location) : Bool :=
  p.isAbove || p = nullDevice.dropLast ||
    fs.entries.any fun e => p.isPrefixOf (Location.ofPath e.1) && p ≠ Location.ofPath e.1

def step (fs : Files) (p : Location) (name : String) : Except FileError Location :=
  if !fs.isDirectory p then .error .notDirectory
  else if nameLimit < name.utf8ByteSize then .error .nameTooLong
  else
    let q := p.step name
    if fs.isDirectory q || (fs.at? q).isSome then .ok q else .error .missing

def walk (fs : Files) (path : String) (names : List String) : Except FileError Location :=
  if path.isEmpty then .error .missing
  else if pathLimit < path.utf8ByteSize then .error .nameTooLong
  else names.foldlM fs.step (.start path)

/-- The text of a file. A slash at the end of its path asks for a directory. -/
def read (fs : Files) (path : String) : Except FileError String := do
  let p ← fs.walk path (path.splitOn "/")
  match fs.at? p with
  | some text => .ok text
  | none => .error .isDirectory

def write (fs : Files) (path text : String) : Except FileError Files := do
  let all := path.splitOn "/"
  let names := (all.reverse.dropWhile (· = "")).reverse
  let name := names.getLast?.getD "."
  let p ← fs.walk path names.dropLast
  if !fs.isDirectory p then .error .notDirectory
  else if names.length < all.length || name = "." || name = ".." then .error .isDirectory
  else
    match fs.step p name with
    | .error .missing => .ok ⟨fs.entries ++ [(path, text)]⟩
    | .error e => .error e
    | .ok q =>
      if fs.isDirectory q then .error .isDirectory
      else .ok ⟨fs.entries.map fun e => if Location.ofPath e.1 = q then (e.1, text) else e⟩

end Files

end GraphRules
