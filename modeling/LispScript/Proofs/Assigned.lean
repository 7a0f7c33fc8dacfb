import LispScript.Proofs.Number

/-!
Which variables code can change: the names that it assigns to, at any depth, and the names that it
declares in the scope it runs in. A function literal declares names in scopes of its own only.
-/

namespace LispScript.Script

/-- The name that an expression is. -/
def Expr.named : Expr → List String
  | .ident name => [name]
  | _ => []

mutual

/-- The names that an expression assigns to, in function literals too. -/
def Expr.assigned : Expr → List String
  | .number _ | .string _ | .bool _ | .undefined | .ident _ | .support _ => []
  | .member object _ => object.assigned
  | .index object position => object.assigned ++ position.assigned
  | .call callee args => callee.assigned ++ Expr.assignedAll args
  | .function _ body => Stmt.assignedAll body
  | .array items => Expr.assignedAll items
  | .binary _ left right => left.assigned ++ right.assigned
  | .unary _ operand => operand.assigned
  | .cond test yes no => test.assigned ++ (yes.assigned ++ no.assigned)
  | .assign target value => target.named ++ target.assigned ++ value.assigned
  | .comma items => Expr.assignedAll items

def Expr.assignedAll : List Expr → List String
  | [] => []
  | item :: rest => item.assigned ++ Expr.assignedAll rest

def Stmt.assigned : Stmt → List String
  | .declare _ => []
  | .define _ value => value.assigned
  | .effect value => value.assigned
  | .ret value => value.assigned
  | .branch test yes no => test.assigned ++ (Stmt.assignedAll yes ++ Stmt.assignedAll no)
  | .loop _ test body => test.assigned ++ Stmt.assignedAll body
  | .iterate start test update body =>
      start.assigned ++ (test.assigned ++ (update.assigned ++ Stmt.assignedAll body))
  | .select subject cases => subject.assigned ++ Case.assignedAll cases
  | .leave _ => []
  | .raise value => value.assigned
  | .guarded block handler cleanup =>
      Stmt.assignedAll block ++ (handler.assigned ++ cleanup.assigned)

def Stmt.assignedAll : List Stmt → List String
  | [] => []
  | stmt :: rest => stmt.assigned ++ Stmt.assignedAll rest

def Case.assigned : Case → List String
  | .case test body => test.assigned ++ Stmt.assignedAll body
  | .otherwise body => Stmt.assignedAll body

def Case.assignedAll : List Case → List String
  | [] => []
  | case :: rest => case.assigned ++ Case.assignedAll rest

def Handler.assigned : Handler → List String
  | .none => []
  | .catching _ body => Stmt.assignedAll body

def Cleanup.assigned : Cleanup → List String
  | .none => []
  | .always body => Stmt.assignedAll body

end

mutual

/-- The names that a statement declares in the scope it runs in. -/
def Stmt.declared : Stmt → List String
  | .declare name => [name]
  | .define name _ => [name]
  | .effect _ | .ret _ | .leave _ | .raise _ => []
  | .branch _ yes no => Stmt.declaredAll yes ++ Stmt.declaredAll no
  | .loop _ _ body => Stmt.declaredAll body
  | .iterate _ _ _ body => Stmt.declaredAll body
  | .select _ cases => Case.declaredAll cases
  | .guarded block handler cleanup =>
      Stmt.declaredAll block ++ (handler.declared ++ cleanup.declared)

def Stmt.declaredAll : List Stmt → List String
  | [] => []
  | stmt :: rest => stmt.declared ++ Stmt.declaredAll rest

def Case.declared : Case → List String
  | .case _ body => Stmt.declaredAll body
  | .otherwise body => Stmt.declaredAll body

def Case.declaredAll : List Case → List String
  | [] => []
  | case :: rest => case.declared ++ Case.declaredAll rest

def Handler.declared : Handler → List String
  | .none => []
  | .catching _ body => Stmt.declaredAll body

def Cleanup.declared : Cleanup → List String
  | .none => []
  | .always body => Stmt.declaredAll body

end

section Lists

@[simp] theorem Stmt.assignedAll_append (first second : List Stmt) :
    Stmt.assignedAll (first ++ second) = Stmt.assignedAll first ++ Stmt.assignedAll second := by
  induction first with
  | nil => rfl
  | cons stmt rest ih => simp [Stmt.assignedAll, ih]

@[simp] theorem Stmt.declaredAll_append (first second : List Stmt) :
    Stmt.declaredAll (first ++ second) = Stmt.declaredAll first ++ Stmt.declaredAll second := by
  induction first with
  | nil => rfl
  | cons stmt rest ih => simp [Stmt.declaredAll, ih]

@[simp] theorem Expr.assignedAll_append (first second : List Expr) :
    Expr.assignedAll (first ++ second) = Expr.assignedAll first ++ Expr.assignedAll second := by
  induction first with
  | nil => rfl
  | cons code rest ih => simp [Expr.assignedAll, ih]

@[simp] theorem Stmt.assignedAll_effects (codes : List Expr) :
    Stmt.assignedAll (codes.map .effect) = Expr.assignedAll codes := by
  induction codes with
  | nil => rfl
  | cons code rest ih => simp [Stmt.assignedAll, Stmt.assigned, Expr.assignedAll, ih]

@[simp] theorem Stmt.declaredAll_effects (codes : List Expr) :
    Stmt.declaredAll (codes.map .effect) = [] := by
  induction codes with
  | nil => rfl
  | cons code rest ih => simp [Stmt.declaredAll, Stmt.declared, ih]

end Lists

end LispScript.Script
