import GraphRules.Command.Files

/-! What a command does, step by step: files it reads and writes, and lines it prints. A plan is
carried out on the files of a machine, or on files in memory. -/
namespace GraphRules

inductive Plan (α : Type) where
  | done (a : α)
  | read (path : String) (next : Except FileError String → Plan α)
  | write (path text : String) (next : Option FileError → Plan α)
  | print (text : String) (next : Plan α)
  | warn (text : String) (next : Plan α)

namespace Plan

def bind : Plan α → (α → Plan β) → Plan β
  | .done a, f => f a
  | .read path next, f => .read path fun r => bind (next r) f
  | .write path text next, f => .write path text fun r => bind (next r) f
  | .print text next, f => .print text (bind next f)
  | .warn text next, f => .warn text (bind next f)

instance : Monad Plan where
  pure := .done
  bind := bind

def printLines (lines : List String) : Plan Unit :=
  match lines with
  | [] => .done ()
  | ls => .print (String.join (ls.map (· ++ "\n"))) (.done ())

def warnLines (lines : List String) : Plan Unit :=
  match lines with
  | [] => .done ()
  | ls => .warn (String.join (ls.map (· ++ "\n"))) (.done ())

end Plan

structure Trace where
  files : Files
  printed : String := ""
  warned : String := ""
  deriving DecidableEq, Inhabited

def Plan.runOn (t : Trace) : Plan α → α × Trace
  | .done a => (a, t)
  | .read path next => (next (t.files.read path)).runOn t
  | .write path text next =>
    match t.files.write path text with
    | .ok files => (next none).runOn { t with files }
    | .error e => (next (some e)).runOn t
  | .print text next => next.runOn { t with printed := t.printed ++ text }
  | .warn text next => next.runOn { t with warned := t.warned ++ text }

end GraphRules
