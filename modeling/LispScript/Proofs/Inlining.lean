import LispScript.Compiler.Inline
import LispScript.Proofs.Escapes
import LispScript.Proofs.SignedZero
import LispScript.Proofs.Standing

/-!
Direct calls of built-in functions. The operators that stand in for the arithmetic functions and for
the comparisons of two arguments compute what the functions compute, and complain as they do, except
that they also take what no number is: `===` compares any two values, and `+` and the orders take
strings.
-/

namespace LispScript.Compiler

open Script Machine Discipline Number

/-- Two runs that end alike, down to the image that they leave, or with numbers that are alike up to
the sign of zero. -/
def SameOutcome (first second : EStateM.Result Interrupt Image Value) : Prop :=
  first = second ∨ ∃ x y later, first = .ok (.number x) later ∧ second = .ok (.number y) later ∧
    SameUpToZeroSign x y

/-- The calls that are compiled to operators which take more than their function does. -/
inductive Lax : Primitive → List Value → Prop
  | joined : Lax .add (.string a s :: .string b t :: rest)
  | ordered (mem : p ∈ [.lt, .gt, .le, .ge]) : Lax p [.string a s, .string b t]
  | compared (mixed : (x.isNumber && y.isNumber) = false) : Lax .numEq [x, y]

section Operands

variable {call : Caller} {turns : Nat} {scope : Address} {image later : Image}
  {args : List Expr} {values : List Value}

variable (call turns scope image) in
/-- An expression that has a value and changes nothing. -/
abbrev Settles (arg : Expr) (value : Value) : Prop :=
  evalExpr call turns scope arg image = .ok value image

theorem evalList_settled (settled : List.Forall₂ (Settles call turns scope image) args values) :
    evalList call turns scope args image = .ok values image := by
  induction settled with
  | nil => simp only [evalList]; rfl
  | cons first _ ih =>
      simp only [evalList]
      rw [bind_of_ok first, bind_of_ok ih]
      rfl

theorem settles_number (n : Float) : Settles call turns scope image (.number n) (.number n) := by
  rw [Settles, evalExpr]
  rfl

theorem settles_nil : Settles call turns scope image .nil .nil := by
  rw [Settles, Expr.nil, evalExpr]
  rfl

theorem settles_t : Settles call turns scope image .t .t := by
  rw [Settles, Expr.t, evalExpr]
  rfl

theorem accepts_exactly {n count : Nat} : (Arity.exactly n).accepts count = true ↔ count = n := by
  change (decide (n ≤ count) && decide (count ≤ n)) = true ↔ _
  rw [Bool.and_eq_true, decide_eq_true_iff, decide_eq_true_iff]
  omega

theorem lone_operand (settled : List.Forall₂ (Settles call turns scope image) args values)
    (accepted : (Arity.exactly 1).accepts values.length = true) :
    ∃ arg value, args = [arg] ∧ values = [value] ∧ Settles call turns scope image arg value := by
  obtain ⟨value, rfl⟩ := List.length_eq_one_iff.mp (accepts_exactly.mp accepted)
  rcases settled with _ | ⟨settles, _ | _⟩
  exact ⟨_, _, rfl, rfl, settles⟩

theorem numberOf_of_not_number {value : Value} (other : value.isNumber = false) :
    numberOf value = Run.typeError value "NUMBER" := by
  cases value with
  | number => cases other
  | _ => rfl

theorem bind_of_error {α β : Type} {x : Run α} {f : α → Run β} {interrupt : Interrupt}
    (failed : x image = .error interrupt later) :
    (x >>= f) image = .error interrupt later := by
  change EStateM.bind x f image = _
  rw [EStateM.bind, failed]

end Operands

section Outcomes

variable {first second : EStateM.Result Interrupt Image Value}

theorem SameOutcome.symm (same : SameOutcome first second) : SameOutcome second first := by
  rcases same with rfl | ⟨x, y, later, rfl, rfl, rfl | ⟨zeroX, zeroY⟩⟩
  · exact .inl rfl
  · exact .inl rfl
  · exact .inr ⟨y, x, later, rfl, rfl, .inr ⟨zeroY, zeroX⟩⟩

end Outcomes

section Folds

variable {call : Caller} {turns : Nat} {scope : Address} {image : Image}
  {args : List Expr} {values : List Value} {op : BinaryOp} {combine : Float → Float → Float}

/-- The operators that fold the arguments of arithmetic functions, on numbers. -/
def foldOn? : BinaryOp → Option (Float → Float → Float)
  | .add => some (· + ·)
  | .sub => some (· - ·)
  | .mul => some (· * ·)
  | _ => none

theorem foldOn?_strict (folds : foldOn? op = some combine) : op ≠ .and ∧ op ≠ .or := by
  constructor <;> rintro rfl <;> cases folds

theorem applyBinary_numbers (folds : foldOn? op = some combine) (x y : Float) :
    applyBinary op (.number x) (.number y) = (return .number (combine x y) : Run Value) := by
  cases op <;> cases folds <;> rfl

/-- An operator complains about the first operand that is no number, unless it is given two
strings. -/
theorem applyBinary_other (folds : foldOn? op = some combine) {x y : Value}
    (apart : x.isString = true → y.isString = true → op ≠ .add)
    (other : x.isNumber = false) :
    applyBinary op x y = Run.typeError x "NUMBER" := by
  cases op <;> cases folds <;> cases x <;> cases y <;>
    first | rfl | (cases other; done) | exact absurd rfl (apart rfl rfl)

theorem applyBinary_number_other (folds : foldOn? op = some combine) (x : Float) {y : Value}
    (other : y.isNumber = false) :
    applyBinary op (.number x) y = Run.typeError y "NUMBER" := by
  cases op <;> cases folds <;> cases y <;> first | rfl | cases other

theorem evalExpr_foldl_error (strict : op ≠ .and ∧ op ≠ .or) {first : Expr} {interrupt : Interrupt}
    {later : Image} (failed : evalExpr call turns scope first image = .error interrupt later)
    (args : List Expr) :
    evalExpr call turns scope (args.foldl (Expr.binary op) first) image =
      .error interrupt later := by
  induction args generalizing first with
  | nil => exact failed
  | cons arg rest ih =>
      refine ih ?_
      rw [evalExpr_binary strict]
      exact bind_of_error failed

theorem accumulate_number (combine : Float → Float → Float) (total x : Float)
    (values : List Value) :
    accumulate combine total (.number x :: values) = accumulate combine (combine total x) values :=
  rfl

theorem accumulate_other (combine : Float → Float → Float) (total : Float) {value : Value}
    (other : value.isNumber = false) (values : List Value) :
    accumulate combine total (value :: values) = Run.typeError value "NUMBER" := by
  rw [accumulate, numberOf_of_not_number other]
  rfl

/-- Once there is a number on the left, the operators accumulate as the function does. -/
theorem evalExpr_foldl (folds : foldOn? op = some combine) {first : Expr} {total : Float}
    (started : Settles call turns scope image first (.number total))
    (settled : List.Forall₂ (Settles call turns scope image) args values) :
    evalExpr call turns scope (args.foldl (Expr.binary op) first) image =
      accumulate combine total values image := by
  induction settled generalizing first total with
  | nil => exact started
  | @cons arg value args values settles _ ih =>
      have applied := evalExpr_operator (foldOn?_strict folds) started settles
      cases isNumber : value.isNumber with
      | false =>
          rw [applyBinary_number_other folds _ isNumber] at applied
          rw [List.foldl_cons, evalExpr_foldl_error (foldOn?_strict folds) applied,
            accumulate_other _ _ isNumber]
          rfl
      | true =>
          cases value with
          | number y =>
              rw [applyBinary_numbers folds] at applied
              rw [accumulate_number]
              exact ih applied
          | _ => cases isNumber

/-- Totals that are alike up to the sign of zero stay so as the same numbers are added. -/
theorem SameOutcome.accumulate_add {x y : Float} (same : SameUpToZeroSign x y)
    (values : List Value) :
    SameOutcome (accumulate (· + ·) x values image) (accumulate (· + ·) y values image) := by
  induction values generalizing x y with
  | nil => exact .inr ⟨x, y, image, rfl, rfl, same⟩
  | cons value rest ih =>
      cases isNumber : value.isNumber with
      | false =>
          rw [accumulate_other _ _ isNumber, accumulate_other _ _ isNumber]
          exact .inl rfl
      | true =>
          cases value with
          | number z =>
              rw [accumulate_number, accumulate_number]
              exact ih (same.add_right z)
          | _ => cases isNumber

/-- Two operands or more are folded from the first, which must be a number as the others must. -/
theorem inlineFold_many (folds : foldOn? op = some combine) {arg : Expr} {first : Value}
    (settles : Settles call turns scope image arg first)
    (settled : List.Forall₂ (Settles call turns scope image) args values) (more : values ≠ [])
    (apart : ∀ x rest, values = x :: rest → first.isString = true → x.isString = true →
      op ≠ .add) :
    evalExpr call turns scope (inlineFold op (arg :: args)) image =
      (do accumulate combine (← numberOf first) values) image := by
  have strict := foldOn?_strict folds
  cases settled with
  | nil => exact absurd rfl more
  | @cons next value args values settlesNext settled =>
      change evalExpr call turns scope ((next :: args).foldl (Expr.binary op) arg) image = _
      cases isNumber : first.isNumber with
      | true =>
          cases first with
          | number x => exact evalExpr_foldl folds settles (.cons settlesNext settled)
          | _ => cases isNumber
      | false =>
          have applied := evalExpr_operator strict settles settlesNext
          rw [applyBinary_other folds (apart _ _ rfl) isNumber] at applied
          rw [List.foldl_cons, evalExpr_foldl_error strict applied,
            numberOf_of_not_number isNumber]
          rfl

/-- A lone operand is combined with a number on its left. -/
theorem inlineFold_lone (folds : foldOn? op = some combine) {arg : Expr} {value : Value}
    (settles : Settles call turns scope image arg value) (neutral : Float) :
    evalExpr call turns scope (.binary op (.number neutral) arg) image =
      accumulate combine neutral [value] image :=
  evalExpr_foldl folds (settles_number neutral) (.cons settles .nil)

end Folds

section Comparisons

variable {call : Caller} {turns : Nat} {scope : Address} {image : Image} {op : BinaryOp}
  {related : Float → Float → Bool} {a b : Expr} {x y : Value}

theorem evalExpr_lispTruth {test : Expr} {truth : Bool}
    (settles : Settles call turns scope image test (.bool truth)) :
    evalExpr call turns scope (lispTruth test) image = .ok (.ofBool truth) image := by
  rw [lispTruth, evalExpr, bind_of_ok settles]
  cases truth <;> (simp only [Value.truthy, evalExpr, Expr.t, Expr.nil]; rfl)

theorem evalExpr_lispTruth_error {test : Expr} {interrupt : Interrupt}
    (failed : evalExpr call turns scope test image = .error interrupt image) :
    evalExpr call turns scope (lispTruth test) image = .error interrupt image := by
  rw [lispTruth, evalExpr]
  exact bind_of_error failed

/-- The operators that stand for the comparisons of numbers. -/
def relation? : BinaryOp → Option (Float → Float → Bool)
  | .strictEq => some (· == ·)
  | .lt => some fun x y => x < y
  | .gt => some fun x y => y < x
  | .le => some fun x y => x ≤ y
  | .ge => some fun x y => y ≤ x
  | _ => none

theorem relation?_strict (relates : relation? op = some related) : op ≠ .and ∧ op ≠ .or := by
  constructor <;> rintro rfl <;> cases relates

theorem applyBinary_related (relates : relation? op = some related) (x y : Float) :
    applyBinary op (.number x) (.number y) = (return .bool (related x y) : Run Value) := by
  cases op <;> cases relates <;> rfl

theorem chain_pair (related : Float → Float → Bool) (x y : Float) :
    chain related [.number x, .number y] image = .ok (.ofBool (related x y)) image := by
  change (if related x y then chainFrom related y [] else return .nil : Run Value) image = _
  cases related x y <;> rfl

/-- Two numbers are compared as the function compares them. -/
theorem lispTruth_numbers (relates : relation? op = some related) {x y : Float}
    (settlesA : Settles call turns scope image a (.number x))
    (settlesB : Settles call turns scope image b (.number y)) :
    evalExpr call turns scope (lispTruth (.binary op a b)) image =
      chain related [.number x, .number y] image := by
  have applied := evalExpr_operator (relation?_strict relates) settlesA settlesB
  rw [applyBinary_related relates] at applied
  rw [evalExpr_lispTruth applied, chain_pair]

/-- The orders complain about the first operand that is no number, unless both are strings. -/
theorem lispTruth_others (relates : relation? op = some related) (order : op ≠ .strictEq)
    (settlesA : Settles call turns scope image a x) (settlesB : Settles call turns scope image b y)
    (mixed : (x.isNumber && y.isNumber) = false) (apart : (x.isString && y.isString) = false) :
    evalExpr call turns scope (lispTruth (.binary op a b)) image = chain related [x, y] image := by
  have applied := evalExpr_operator (relation?_strict relates) settlesA settlesB
  cases isNumber : x.isNumber with
  | false =>
      have complains : applyBinary op x y = Run.typeError x "NUMBER" := by
        cases op <;> cases relates <;> cases x <;> cases y <;>
          first | rfl | (cases isNumber; done) | (cases apart; done) | exact absurd rfl order
      rw [complains] at applied
      rw [evalExpr_lispTruth_error applied, chain, show actual [x, y] 0 = x from rfl,
        numberOf_of_not_number isNumber]
      rfl
  | true =>
      obtain ⟨n, rfl⟩ : ∃ n, x = .number n := by
        cases x with
        | number n => exact ⟨n, rfl⟩
        | _ => cases isNumber
      rw [isNumber, Bool.true_and] at mixed
      have complains : applyBinary op (.number n) y = Run.typeError y "NUMBER" := by
        cases op <;> cases relates <;> cases y <;>
          first | rfl | (cases mixed; done) | exact absurd rfl order
      rw [complains] at applied
      rw [evalExpr_lispTruth_error applied]
      change _ = (do chainFrom related n [y] : Run Value) image
      rw [chainFrom, numberOf_of_not_number mixed]
      rfl

/-- Two values are compared by identity. -/
theorem lispTruth_identical (settlesA : Settles call turns scope image a x)
    (settlesB : Settles call turns scope image b y) :
    evalExpr call turns scope (lispTruth (.binary .strictEq a b)) image =
      .ok (.ofBool (x.strictEq y)) image :=
  evalExpr_lispTruth (evalExpr_strictEq settlesA settlesB)

end Comparisons

section Calls

variable {steps turns : Nat} {scope fn : Address} {image : Image} {p : Primitive}
  {args : List Expr} {values : List Value} {acceptor : Expr} {accepting : Value}

/-- The function object of a built-in function checks the number of its arguments. -/
theorem callWithin_primitive (installed : (image.heap.function fn).callable = .primitive p)
    (accepted : p.arity.accepts values.length = true) :
    callWithin (steps + 1) (.function fn) (accepting :: values) image =
      runPrimitive (callWithin steps) p
        (if p.takesAcceptor then accepting :: values else values) image := by
  rw [callWithin_function, installed]
  simp only [callPrimitive, List.length_cons, Nat.add_sub_cancel, accepted, if_true,
    List.drop_succ_cons, List.drop_zero]

/-- The code that calls the routine of a built-in function. -/
theorem evalExpr_callPrimitive (ordered : Ordered image.heap)
    (done : evalList (callWithin (steps + 1)) turns scope args image = .ok values image) :
    evalExpr (callWithin (steps + 1)) turns scope (.callPrimitive p args) image =
      runPrimitive (callWithin steps) p values image := by
  rw [Expr.callPrimitive, evalExpr_call fun _ _ same => by cases same]
  have found : evalExpr (callWithin (steps + 1)) turns scope (.support (.native (.primitive p)))
      image = .ok (.function (Image.nativeAddress (.primitive p))) image := rfl
  rw [bind_of_ok found, bind_of_ok done]
  exact callWithin_native ordered _ _

/-- What compiled code passes on as an acceptor calls nothing. -/
theorem callWithin_acceptor (ordered : Ordered image.heap) (manyValues : Bool) (steps : Nat)
    (values : List Value) :
    callWithin (steps + 1) (acceptorValue manyValues) values image =
      runRoutine (acceptorRoutine manyValues) values image := by
  rw [acceptorValue, callWithin_native ordered]
  cases manyValues <;> rfl

end Calls

section Agreement

variable {call : Caller} {steps turns : Nat} {scope fn : Address} {image : Image} {p : Primitive}
  {args : List Expr} {values : List Value} {acceptor : Expr} {manyValues : Bool}

/-- The functions whose direct calls can be compiled to something else than a call of their
routine. -/
def templates : List Primitive :=
  [.add, .sub, .mul, .inc, .dec, .numEq, .lt, .gt, .le, .ge, .eq, .null, .not, .values]

theorem inlineCall_routine (plain : p ∉ templates) (args : List Expr) (acceptor : Expr) :
    inlineCall p args acceptor =
      .callPrimitive p (if p.takesAcceptor then acceptor :: args else args) := by
  cases p <;> first | rfl | exact absurd (by decide) plain

theorem inlineCall_chain {op : BinaryOp} (compares : compareOp? p = some op)
    (many : args.length ≠ 2) (acceptor : Expr) :
    inlineCall p args acceptor = .callPrimitive p args := by
  match args, many with
  | [], _ => cases p <;> cases compares <;> rfl
  | [_], _ => cases p <;> cases compares <;> rfl
  | [_, _], many => exact absurd rfl many
  | _ :: _ :: _ :: _, _ => cases p <;> cases compares <;> rfl

section Templates

variable (settled : List.Forall₂ (Settles call turns scope image) args values)

include settled

theorem inlineCall_add (strict : ¬ Lax .add values) :
    SameOutcome (evalExpr call turns scope (inlineCall .add args acceptor) image)
      (runBuiltin .add values image) := by
  have folds : foldOn? .add = some (· + ·) := rfl
  change SameOutcome (evalExpr call turns scope (inlineFold .add args) image)
    (accumulate (· + ·) 0 values image)
  cases settled with
  | nil => exact .inl (by rw [inlineFold, evalExpr]; rfl)
  | @cons arg first args values settles settled =>
      cases settled with
      | nil => exact .inl (inlineFold_lone folds settles 0)
      | @cons next second args values settlesNext settled =>
          rw [inlineFold_many folds settles (.cons settlesNext settled) (by simp)
            fun x rest same isStringX isStringY => ?_]
          · cases isNumber : first.isNumber with
            | false =>
                rw [accumulate_other _ _ isNumber, numberOf_of_not_number isNumber]
                exact .inl rfl
            | true =>
                cases first with
                | number x =>
                    rw [accumulate_number]
                    exact (SameOutcome.accumulate_add (.zero_add x) _).symm
                | _ => cases isNumber
          · cases same
            cases first <;> cases isStringX
            cases second <;> cases isStringY
            exact absurd .joined strict

theorem inlineCall_sub (some_ : values ≠ []) :
    evalExpr call turns scope (inlineCall .sub args acceptor) image =
      runBuiltin .sub values image := by
  have folds : foldOn? .sub = some (· - ·) := rfl
  change evalExpr call turns scope (inlineFold .sub args) image = subtract values image
  cases settled with
  | nil => exact absurd rfl some_
  | @cons arg first args values settles settled =>
      cases settled with
      | nil =>
          change evalExpr call turns scope (.unary .neg arg) image = _
          rw [evalExpr, bind_of_ok settles]
          cases first <;> rfl
      | cons settlesNext settled =>
          exact inlineFold_many folds settles (.cons settlesNext settled) (by simp)
            fun _ _ _ _ _ => by decide

theorem inlineCall_mul :
    evalExpr call turns scope (inlineCall .mul args acceptor) image =
      runBuiltin .mul values image := by
  have folds : foldOn? .mul = some (· * ·) := rfl
  change evalExpr call turns scope (inlineFold .mul args) image =
    accumulate (· * ·) 1 values image
  cases settled with
  | nil => rw [inlineFold, evalExpr]; rfl
  | @cons arg first args values settles settled =>
      cases settled with
      | nil => exact inlineFold_lone folds settles 1
      | cons settlesNext settled =>
          rw [inlineFold_many folds settles (.cons settlesNext settled) (by simp)
            fun _ _ _ _ _ => by decide]
          cases isNumber : first.isNumber with
          | false =>
              rw [accumulate_other _ _ isNumber, numberOf_of_not_number isNumber]
              rfl
          | true =>
              cases first with
              | number x =>
                  rw [accumulate_number, one_mul]
                  rfl
              | _ => cases isNumber

theorem inlineCall_compare {op : BinaryOp} {related : Float → Float → Bool}
    (compares : compareOp? p = some op) (relates : relation? op = some related) (num : p ≠ .eq)
    {x y : Value} (pair : values = [x, y]) (strict : ¬ Lax p [x, y]) :
    evalExpr call turns scope (inlineCall p args acceptor) image = chain related values image := by
  subst pair
  cases settled with
  | @cons a _ _ _ settlesA settled =>
  cases settled with
  | @cons b _ _ _ settlesB settled =>
  cases settled
  have code : inlineCall p [a, b] acceptor = lispTruth (.binary op a b) := by
    cases p <;> cases compares <;> rfl
  rw [code]
  cases numbers : x.isNumber && y.isNumber with
  | true =>
      cases x <;> cases y <;>
        first | exact lispTruth_numbers relates settlesA settlesB | cases numbers
  | false =>
      have order : op ≠ .strictEq := by
        rintro rfl
        cases p <;> cases compares
        · exact strict (.compared numbers)
        · exact num rfl
      refine lispTruth_others relates order settlesA settlesB numbers ?_
      cases x <;> cases y <;> first | rfl | refine absurd (.ordered ?_) strict
      cases p <;> cases compares <;> first | decide | exact absurd rfl order

end Templates

theorem inlineCall_relation {op : BinaryOp} {related : Float → Float → Bool}
    (ordered : Ordered image.heap)
    (settled : List.Forall₂ (Settles (callWithin (steps + 2)) turns scope image) args values)
    (compares : compareOp? p = some op) (relates : relation? op = some related) (num : p ≠ .eq)
    (strict : ¬ Lax p values) :
    evalExpr (callWithin (steps + 2)) turns scope (inlineCall p args acceptor) image =
      runPrimitive (callWithin (steps + 1)) p values image := by
  by_cases two : values.length = 2
  · obtain ⟨x, y, rfl⟩ := List.length_eq_two.mp two
    rw [inlineCall_compare settled compares relates num rfl strict]
    cases p <;> cases compares <;> cases relates <;> first | rfl | exact absurd rfl num
  · rw [inlineCall_chain compares (settled.length_eq ▸ two)]
    exact evalExpr_callPrimitive ordered (evalList_settled settled)

/-- A direct call of a built-in function ends as a call of its function object does, unless it is
compiled to an operator that takes more than the function. -/
theorem inlineCall_same (ordered : Ordered image.heap)
    (installed : (image.heap.function fn).callable = .primitive p)
    (accepts : Settles (callWithin (steps + 2)) turns scope image acceptor
      (acceptorValue manyValues))
    (named : IsNamed acceptor)
    (settled : List.Forall₂ (Settles (callWithin (steps + 2)) turns scope image) args values)
    (accepted : p.arity.accepts values.length = true) (strict : ¬ Lax p values) :
    SameOutcome
      (evalExpr (callWithin (steps + 2)) turns scope (inlineCall p args acceptor) image)
      (callWithin (steps + 2) (.function fn) (acceptorValue manyValues :: values) image) := by
  rw [callWithin_primitive installed accepted]
  have done := evalList_settled settled
  by_cases plain : p ∉ templates
  · refine .inl ?_
    rw [inlineCall_routine plain]
    cases takes : p.takesAcceptor with
    | false => exact evalExpr_callPrimitive ordered done
    | true =>
        refine evalExpr_callPrimitive ordered ?_
        exact evalList_settled (.cons accepts settled)
  · cases p with
    | add => exact inlineCall_add settled strict
    | sub => exact .inl (inlineCall_sub settled (by rintro rfl; cases accepted))
    | mul => exact .inl (inlineCall_mul settled)
    | numEq => exact .inl (inlineCall_relation ordered settled rfl rfl (by simp) strict)
    | lt => exact .inl (inlineCall_relation ordered settled rfl rfl (by simp) strict)
    | gt => exact .inl (inlineCall_relation ordered settled rfl rfl (by simp) strict)
    | le => exact .inl (inlineCall_relation ordered settled rfl rfl (by simp) strict)
    | ge => exact .inl (inlineCall_relation ordered settled rfl rfl (by simp) strict)
    | eq =>
        obtain ⟨x, y, rfl⟩ := List.length_eq_two.mp (accepts_exactly.mp accepted)
        rcases settled with _ | ⟨settlesA, _ | ⟨settlesB, _ | _⟩⟩
        exact .inl (lispTruth_identical settlesA settlesB)
    | inc =>
        obtain ⟨arg, x, rfl, rfl, settles⟩ := lone_operand settled accepted
        refine .inl ((evalExpr_operator (by decide) settles (settles_number 1)).trans ?_)
        cases x <;> rfl
    | dec =>
        obtain ⟨arg, x, rfl, rfl, settles⟩ := lone_operand settled accepted
        refine .inl ((evalExpr_operator (by decide) settles (settles_number 1)).trans ?_)
        cases x <;> rfl
    | null =>
        obtain ⟨arg, x, rfl, rfl, settles⟩ := lone_operand settled accepted
        refine .inl ((lispTruth_identical settles settles_nil).trans ?_)
        cases x <;> rfl
    | not =>
        obtain ⟨arg, x, rfl, rfl, settles⟩ := lone_operand settled accepted
        refine .inl ((lispTruth_identical settles settles_nil).trans ?_)
        cases x <;> rfl
    | values =>
        refine .inl ?_
        change evalExpr _ turns scope (.call acceptor args) image =
          callWithin (steps + 1) (acceptorValue manyValues) values image
        rw [evalExpr_call named, bind_of_ok accepts, bind_of_ok done,
          callWithin_acceptor ordered, callWithin_acceptor ordered]
    | _ => exact absurd (by decide) plain

/-- The symbol of a built-in function holds its function object from the start. -/
theorem callable_initial (p : Primitive) (depthLimit : Nat) :
    ((Image.initial depthLimit).heap.function (Image.primitiveAddress p)).callable =
      .primitive p := by
  have found := Image.primitiveIndex p
  change (Image.initialHeap.functions.getD (Image.primitiveAddress p) default).callable = _
  rw [Array.getD_eq_getD_getElem?, Image.initialHeap, Image.primitiveAddress,
    Array.getElem?_append_right (by simp)]
  simp [found]

theorem settles_acceptor (manyValues : Bool) :
    Settles call turns scope image (.routine (acceptorRoutine manyValues))
      (acceptorValue manyValues) := by
  rw [Settles, Expr.routine, evalExpr]
  rfl

/-- A sum of two numbers, compiled and called. -/
theorem inlineCall_same_of_sum :
    SameOutcome
      (evalExpr (callWithin 2) 2 Image.globalScope
        (inlineCall .add [.number 1, .number 2] (.routine (acceptorRoutine false)))
        (Image.initial 1000))
      (callWithin 2 (.function (Image.primitiveAddress .add))
        [acceptorValue false, .number 1, .number 2] (Image.initial 1000)) :=
  inlineCall_same (Machine.Ordered.initial #[])
    (callable_initial .add 1000) (settles_acceptor false) (fun _ _ same => by cases same)
    (.cons (settles_number 1) (.cons (settles_number 2) .nil)) rfl (by rintro ⟨⟩)

/-- Compiled code compares a symbol with itself where the function wants numbers. -/
theorem numEq_takes_symbols :
    evalExpr (callWithin 2) 2 Image.globalScope
        (inlineCall .numEq [.t, .t] (.routine (acceptorRoutine false))) (Image.initial 1000) =
      .ok .t (Image.initial 1000) ∧
    callWithin 2 (.function (Image.primitiveAddress .numEq)) [acceptorValue false, .t, .t]
        (Image.initial 1000) =
      .error (.failed (.typeError ((Image.initial 1000).print .t) "NUMBER"))
        (Image.initial 1000) := by
  have settles : Settles (callWithin 2) 2 Image.globalScope (Image.initial 1000) .t .t := by
    rw [Settles, Expr.t, evalExpr]
    rfl
  constructor
  · exact lispTruth_identical settles settles
  · rw [callWithin_primitive (callable_initial .numEq 1000) rfl]
    rfl

end Agreement

end LispScript.Compiler
