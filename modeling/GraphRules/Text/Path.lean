import GraphRules.Text.Blank

/-! Names of files. -/
namespace GraphRules.Path

/-- The parts between slashes. Empty ones and single dots after the first part do not count. -/
def parts (path : String) : List (List Char) :=
  let all := (path.splitOn "/").map String.toList
  match all with
  | [] => []
  | p :: ps => (p :: ps.filter fun q => q ≠ ['.']).filter fun q => !q.isEmpty

/-- What follows the last dot of the last part. A dot that starts the part does not count. -/
def extension? (path : String) : Option String :=
  match (parts path).getLast? with
  | none => none
  | some p =>
    if p = ['.', '.'] then none
    else
      let reversed := p.reverse
      match reversed.dropWhile (· ≠ '.') with
      | [] => none
      | [_] => none
      | _ => some (String.ofList (reversed.takeWhile (· ≠ '.')).reverse)

def lowerExtension? (path : String) : Option String :=
  (extension? path).map fun s => String.ofList (Text.lower s.toList)

end GraphRules.Path
