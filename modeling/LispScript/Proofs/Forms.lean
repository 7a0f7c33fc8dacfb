import LispScript.Proofs.Extent

/-!
From a form to its code: which part of the compiler a special form goes to, what the steps of a
compilation that succeeds were, and how the code that wraps statements runs.
-/

namespace LispScript

open Script Compiler Machine Discipline

/-- A list of a special form's symbol and arguments. -/
def IsForm (heap : Heap) (special : SpecialForm) (args : List Value) (form : Value) : Prop :=
  ∃ address, form = .cons address ∧ (heap.cell address).car = .symbol special.symbol ∧
    heap.listItems? (heap.cell address).cdr = some args

/-- A compiler with a heap of the given cells and nothing else. -/
def CompileState.ofCells (cells : List Cell) : CompileState :=
  { image := { symbols := default, heap := { cells := cells.toArray }, depthLimit := 0 } }

section Steps

variable {s s' : CompileState} {form : Value} {special : SpecialForm} {args : List Value}

/-- A sequence of steps that succeeds. -/
theorem ok_of_bind {σ ε α β : Type} {x : EStateM ε σ α} {f : α → EStateM ε σ β} {i k : σ} {b : β}
    (ok : (x >>= f) i = .ok b k) :
    ∃ a j, x i = .ok a j ∧ f a j = .ok b k := by
  change EStateM.bind x f i = _ at ok
  rw [EStateM.bind] at ok
  split at ok
  · rename_i a j done
    exact ⟨a, j, done, ok⟩
  · contradiction

/-- A special form is compiled by the part of the compiler that is for it. -/
theorem compileWithin_special (isForm : IsForm s.image.heap special args form) (depth : Nat)
    (context : Context) :
    compileWithin (depth + 1) context form s =
      compileSpecial (compileWithin depth) context special form args s := by
  obtain ⟨address, rfl, head, items⟩ := isForm
  have not_lambda : special.symbol ≠ SymbolId.lambda := by cases special <;> decide
  have rest_eq : restItems? (.cons address) s = .ok (some args) s := by
    change EStateM.Result.ok (s.image.heap.listItems? (s.image.heap.cell address).cdr) s = _
    rw [items]
  change compileCompound (compileWithin depth) context (.cons address)
    (s.image.heap.cell address).car s = _
  rw [head, compileCompound]
  change EStateM.bind _ _ s = _
  rw [EStateM.bind, rest_eq]
  change compileNamed (compileWithin depth) context (.cons address) special.symbol args s = _
  rw [compileNamed, if_neg not_lambda, SpecialForm.ofSymbol?_symbol]

theorem IsForm.data {W : World} {image : Image} (isForm : IsForm image.heap special args form)
    (describes : W.Describes image) : W.Data args := by
  obtain ⟨address, -, -, items⟩ := isForm
  exact listItems_data describes (describes.cell_datum address).2 items

end Steps

section Wrapping

variable (call : Caller) (turns : Nat) {b : Nat} {image : Image}

/-- The image in which a scope for a body of statements is open. -/
def Image.inside (image : Image) (b : Nat) : Image :=
  { image with
    heap := ((image.heap.allocVector #[]).2.allocScope
      ⟨({} : Variables).insert "arguments" (.vector image.heap.vectors.size), some b, true⟩).2 }

theorem evalExpr_wrap (code : List Stmt) :
    evalExpr call turns b (.wrap code) image =
      (execBlock call turns image.heap.scopes.size code >>= resultOf) (image.inside b) := by
  rw [Expr.wrap, Expr.inPlace]
  simp only [evalExpr, evalList, pure_bind, openActivation]
  rw [if_neg (by decide)]
  rfl

theorem evalExpr_wrap_singleton (stmt : Stmt) :
    evalExpr call turns b (.wrap [stmt]) image =
      (exec call turns image.heap.scopes.size stmt >>= resultOf) (image.inside b) := by
  rw [evalExpr_wrap, execBlock_singleton]

/-- Expressions as statements. -/
theorem execBlock_effects (codes : List Expr) :
    execBlock call turns b (codes.map .effect) =
      (do let _ ← evalList call turns b codes; return .normal) := by
  induction codes with
  | nil => simp [execBlock, evalList]
  | cons code rest ih =>
      simp only [List.map_cons, execBlock, exec, evalList, ih, bind_assoc, pure_bind]

end Wrapping

section Positions

variable {call : Caller} {turns : Nat} {x : Run β} {i j : Image} {b : Nat} {pending : List Layer}

/-- A statement of a block at work. -/
theorem Machine.Active.ofStmt {stmt : Stmt} {rest : List Stmt}
    (active : Active x j (exec call turns b stmt) i pending) :
    Active x j (execBlock call turns b (stmt :: rest)) i pending := by
  rw [execBlock]
  exact .first active

/-- The rest of a block at work. -/
theorem Machine.Active.afterStmt {stmt : Stmt} {rest : List Stmt} {i' : Image}
    (done : exec call turns b stmt i = .ok .normal i')
    (active : Active x j (execBlock call turns b rest) i' pending) :
    Active x j (execBlock call turns b (stmt :: rest)) i pending := by
  rw [execBlock]
  exact .next done active

theorem Machine.Active.ofReturn {code : Expr} (active : Active x j (evalExpr call turns b code) i pending) :
    Active x j (execBlock call turns b [.ret code]) i pending := by
  refine .ofStmt ?_
  rw [exec]
  exact .first active

/-- The statements of a wrapped body at work. -/
theorem Machine.Active.ofWrap {code : List Stmt}
    (active : Active x j (execBlock call turns i.heap.scopes.size code) (i.inside b) pending) :
    Active x j (evalExpr call turns b (.wrap code)) i pending := by
  rw [Expr.wrap, Expr.inPlace]
  simp only [evalExpr, evalList, pure_bind]
  exact .next (a := i.heap.scopes.size) rfl (.first active)

end Positions

end LispScript
