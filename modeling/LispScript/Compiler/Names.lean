import LispScript.Number.Binary

/-!
Generated names of script variables. They come from counters that only grow, so that no name is
made twice in a session.
-/

namespace LispScript.Compiler

structure Counters where
  vars : Nat := 0
  literals : Nat := 0
  blocks : Nat := 0
  tagbodies : Nat := 0
  tags : Nat := 0
  units : Nat := 0
deriving DecidableEq, Repr, Inhabited

/-- The next count; a counter stops at the largest machine word. -/
def next (n : Nat) : Nat := min (n + 1) Number.wordLimit

/-- The name of a script variable without the number that makes it unique: ASCII letters and digits
of a Lisp name in lower case, all else an underscore, and no digit in front. -/
def identifierStem (hint : String) : String :=
  let stem := hint.toList.map fun c => if c.isAlphanum then c.toLower else '_'
  match stem with
  | [] => "v"
  | c :: _ => String.ofList (if c.isDigit then 'v' :: stem else stem)

namespace Counters

/-- A variable that is readable after the Lisp name it stands for. -/
def freshVariable (counters : Counters) (hint : String) : String × Counters :=
  let n := next counters.vars
  (identifierStem hint ++ "_" ++ toString n, { counters with vars := n })

def freshLiteral (counters : Counters) : String × Counters :=
  let n := next counters.literals
  ("l" ++ toString n, { counters with literals := n })

def freshBlock (counters : Counters) : String × Counters :=
  let n := next counters.blocks
  ("b" ++ toString n, { counters with blocks := n })

/-- The variable that identifies a run of a tagbody, and the label of its loop. -/
def freshTagbody (counters : Counters) : (String × String) × Counters :=
  let n := next counters.tagbodies
  (("tb" ++ toString n, "tbloop" ++ toString n), { counters with tagbodies := n })

def freshTag (counters : Counters) : Nat × Counters :=
  let n := next counters.tags
  (n, { counters with tags := n })

def freshUnit (counters : Counters) : Nat × Counters :=
  let n := next counters.units
  (n, { counters with units := n })

end Counters

end LispScript.Compiler
