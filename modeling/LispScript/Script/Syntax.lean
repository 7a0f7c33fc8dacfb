import LispScript.Script.Support

/-!
Scripts: the target language of the compiler, as a syntax tree.
-/

namespace LispScript.Script

inductive BinaryOp where
  | add
  | sub
  | mul
  | div
  | rem
  | lt
  | gt
  | le
  | ge
  | strictEq
  | strictNe
  | looseEq
  | looseNe
  | and
  | or
deriving DecidableEq, Repr

namespace BinaryOp

def all : List BinaryOp :=
  [.add, .sub, .mul, .div, .rem, .lt, .gt, .le, .ge, .strictEq, .strictNe, .looseEq, .looseNe, .and,
    .or]

def sign : BinaryOp → String
  | add => "+"
  | sub => "-"
  | mul => "*"
  | div => "/"
  | rem => "%"
  | lt => "<"
  | gt => ">"
  | le => "<="
  | ge => ">="
  | strictEq => "==="
  | strictNe => "!=="
  | looseEq => "=="
  | looseNe => "!="
  | and => "&&"
  | or => "||"

def ofSign? (sign : String) : Option BinaryOp := all.find? (·.sign == sign)

theorem ofSign?_sign (op : BinaryOp) : ofSign? op.sign = some op := by cases op <;> rfl

end BinaryOp

inductive UnaryOp where
  | not
  | neg
deriving DecidableEq, Repr

mutual

inductive Expr where
  | number (value : Float)
  | string (text : String)
  | bool (value : Bool)
  | undefined
  | ident (name : String)
  | support (member : Support)
  | member (object : Expr) (property : String)
  | index (object position : Expr)
  | call (callee : Expr) (args : List Expr)
  | function (params : List String) (body : List Stmt)
  | array (items : List Expr)
  | binary (op : BinaryOp) (left right : Expr)
  | unary (op : UnaryOp) (operand : Expr)
  | cond (test yes no : Expr)
  | assign (target value : Expr)
  | comma (items : List Expr)

/-- Statements. `declare` and `define` are the two forms of a `var`, `select` is a `switch` whose
cases fall through, and `guarded` is a `try`. -/
inductive Stmt where
  | declare (name : String)
  | define (name : String) (value : Expr)
  | effect (value : Expr)
  | ret (value : Expr)
  | branch (test : Expr) (yes no : List Stmt)
  | loop (label : Option String) (test : Expr) (body : List Stmt)
  | iterate (start test update : Expr) (body : List Stmt)
  | select (subject : Expr) (cases : List Case)
  | leave (label : Option String)
  | raise (value : Expr)
  | guarded (block : List Stmt) (handler : Handler) (cleanup : Cleanup)

inductive Case where
  | case (test : Expr) (body : List Stmt)
  | otherwise (body : List Stmt)

/-- The part of a `guarded` statement that receives thrown values. -/
inductive Handler where
  | none
  | catching (param : String) (body : List Stmt)

/-- The part of a `guarded` statement that runs whichever way the rest is left. -/
inductive Cleanup where
  | none
  | always (body : List Stmt)

end

instance : Inhabited Expr := ⟨.undefined⟩
instance : Inhabited Stmt := ⟨.leave none⟩
instance : Inhabited Case := ⟨.otherwise []⟩

namespace Case

def body : Case → List Stmt
  | case _ body => body
  | otherwise body => body

def isDefault : Case → Bool
  | case _ _ => false
  | otherwise _ => true

end Case

/-- A compiled top-level unit. -/
structure Program where
  body : List Stmt

namespace Expr

def nil : Expr := support .nil

def t : Expr := support .t

def routine (r : Routine) : Expr := support (.native (.routine r))

def callRoutine (r : Routine) (args : List Expr) : Expr := call (routine r) args

def callPrimitive (p : Primitive) (args : List Expr) : Expr :=
  call (support (.native (.primitive p))) args

/-- A function literal called where it stands. -/
def inPlace (params : List String) (args : List Expr) (body : List Stmt) : Expr :=
  call (function params body) args

/-- A body of statements as an expression. -/
def wrap (body : List Stmt) : Expr := inPlace [] [] body

/-- Free of effects, so that a statement of it can be left out. -/
def isConstant : Expr → Bool
  | number _ | string _ | bool _ | undefined | ident _ | support _ | function _ _ => true
  | _ => false

end Expr

end LispScript.Script
