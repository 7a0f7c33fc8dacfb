import LispScript.Proofs.LocalFunctions

/-!
The head of a function: the checks of the number of arguments, and the defaults of optional
parameters. What the arguments are is known, so each test has the outcome that their number gives.
-/

namespace LispScript.Discipline

open Script Machine Compiler

variable {call : Caller} {turns : Nat} {frame : Frame} {code : List Stmt} {kind : Kind}
  {e l r : Expr} {host : String} {W₀ W W' : World} {image later : Image}
  {b count position required : Nat}

section Reading

/-- The arguments of the activation at hand. -/
structure Arguments (W : World) (image : Image) (b count : Nat) (address : Address) : Prop where
  held : image.heap.lookupVariable? b "arguments" = some (.vector address)
  size : (image.heap.vector address).size = count
  positive : 1 ≤ count
  short : count < Number.exactLimit
  datum : ∀ i item, 1 ≤ i → (image.heap.vector address)[i]? = some item → W.Datum item

theorem World.DescribesBut.arguments {owed : Address → Prop} (describes : W.DescribesBut owed image)
    (admits : W.Admits frame b) (known : frame.kinds "arguments" = some (.arguments count)) :
    ∃ address, Arguments W image b count address := by
  obtain ⟨value, held, ⟨address, rfl, role⟩, -⟩ := describes.lookup admits known
  obtain ⟨⟨size, positive, short⟩, datum⟩ := describes.vector_fits role
  exact ⟨address, held, size, positive, short, datum⟩

variable (call turns) in
theorem evalExpr_countLiteral (n : Nat) :
    evalExpr call turns b (countLiteral n) image = .ok (countValue n) image := by
  rw [countLiteral, evalExpr]
  rfl

/-- An operator whose operands are computed. -/
theorem evalExpr_operator {op : BinaryOp} (strict : op ≠ .and ∧ op ≠ .or) {x y : Value}
    {middle : Image} (left : evalExpr call turns b l image = .ok x middle)
    (right : evalExpr call turns b r middle = .ok y later) :
    evalExpr call turns b (.binary op l r) image = applyBinary op x y later := by
  rw [evalExpr_binary strict, bind_of_ok left, bind_of_ok right]

section Vector

variable {address : Address}
  (held : image.heap.lookupVariable? b "arguments" = some (.vector address))
include held

theorem argumentsLength_ok :
    evalExpr call turns b argumentsLength image =
      .ok (countValue (image.heap.vector address).size) image := by
  rw [argumentsLength, evalExpr_member (evalExpr_ident held)]
  rfl

theorem argumentCount_ok (positive : 1 ≤ (image.heap.vector address).size)
    (short : (image.heap.vector address).size < Number.exactLimit) :
    evalExpr call turns b argumentCount image =
      .ok (countValue ((image.heap.vector address).size - 1)) image := by
  rw [argumentCount, evalExpr_operator (by simp) (argumentsLength_ok held)
    (evalExpr_countLiteral call turns 1)]
  change EStateM.Result.ok (Value.number
    (Float.ofNat (image.heap.vector address).size - Float.ofNat 1)) image = _
  rw [Number.ofNat_sub positive short]
  rfl

theorem argumentAt_ok {n : Nat}
    (position_ok : evalExpr call turns b e image = .ok (countValue n) image)
    (small : n < Number.exactLimit) :
    evalExpr call turns b (argumentAt e) image =
      .ok ((image.heap.vector address)[n]?.getD .undefined) image := by
  rw [argumentAt, evalExpr, bind_of_ok (evalExpr_ident held), bind_of_ok position_ok]
  have whole : (decide (0 ≤ Float.ofNat n) && Number.isWhole (Float.ofNat n)) = true := by
    rw [Number.isWhole_ofNat small, Bool.and_true]
    exact decide_eq_true (Number.zero_le_ofNat n)
  change (if decide (0 ≤ Float.ofNat n) && Number.isWhole (Float.ofNat n) then
    (do return ((← Run.heap).vector address)[Number.toCount (Float.ofNat n)]?.getD .undefined)
    else (pure .undefined : Run Value)) image = _
  rw [if_pos whole, Number.toCount_ofNat small]
  rfl

end Vector

variable {address : Address} (arguments : Arguments W image b count address)
include arguments

variable (call turns) in
theorem Arguments.length_ok :
    evalExpr call turns b argumentsLength image = .ok (countValue count) image := by
  rw [argumentsLength_ok arguments.held, arguments.size]

variable (call turns) in
/-- The number of arguments without the acceptor. -/
theorem Arguments.count_ok :
    evalExpr call turns b argumentCount image = .ok (countValue (count - 1)) image := by
  rw [argumentCount_ok arguments.held (arguments.size ▸ arguments.positive)
    (arguments.size ▸ arguments.short), arguments.size]

end Reading

section Checks

theorem count_ok (n : Nat) :
    Machine.count (countValue n) image = .ok (Number.toCount (Float.ofNat n)) image := by
  change (if 0 ≤ Float.ofNat n then (pure (Number.toCount (Float.ofNat n)) : Run Nat)
    else Run.typeError (countValue n) "INTEGER") image = _
  rw [if_pos (Number.zero_le_ofNat n)]
  rfl

/-- A check of the number of arguments ends normally if the number fits. -/
theorem Safe.checkCount {fits : Nat → Nat → Bool} {expected : Nat → String} (n limit : Nat)
    (describes : W.Describes image) :
    Safe W image (Machine.checkCount [countValue n, countValue limit] fits expected) fun _ _ =>
      fits (Number.toCount (Float.ofNat n)) (Number.toCount (Float.ofNat limit)) = true := by
  unfold Machine.checkCount
  change Ends W W image _ ((Machine.count (countValue n) >>= _) image)
  rw [bind_of_ok (count_ok n)]
  change Ends W W image _ ((Machine.count (countValue limit) >>= _) image)
  rw [bind_of_ok (count_ok limit)]
  split
  · rename_i holds
    exact Safe.gives describes holds
  · exact Safe.fail describes trivial

theorem Safe.effectOf {held : World → Value → Prop} {fact : Prop}
    (safe : Safe W image (evalExpr call turns b e) held)
    (gives : ∀ W' value, held W' value → fact) :
    Safe W image (exec call turns b (.effect e)) fun _ flow => flow = .normal ∧ fact := by
  rw [exec]
  exact safe.bind fun W' _ value _ described has =>
    Safe.gives described ⟨rfl, gives W' value has⟩

/-- A check among the statements of a function: after it, what it checked is known. -/
theorem Safe.checkedCount (caller : CallerSound call) {routine : Routine}
    {fits : Nat → Nat → Bool} {expected : Nat → String}
    (is : ∀ inner args, runNative inner (.routine routine) args =
      Machine.checkCount args fits expected)
    (describes : W.Describes image) (admits : W.Admits frame b)
    (known : frame.kinds "arguments" = some (.arguments count)) :
    Safe W image
      (exec call turns b (.effect (.callRoutine routine [argumentCount, countLiteral required])))
      fun _ flow => flow = .normal ∧
        fits (count - 1) (Number.toCount (Float.ofNat required)) = true ∧
          1 ≤ count ∧ count < Number.exactLimit := by
  have arguments : ∀ W' later, Follows W image W' later → W'.Describes later →
      Safe W' later (evalList call turns b [argumentCount, countLiteral required]) fun _ values =>
        values = [countValue (count - 1), countValue required] ∧
          1 ≤ count ∧ count < Number.exactLimit := by
    intro W' later follows described
    obtain ⟨address, arguments⟩ := described.arguments (follows.leads.admits admits) known
    change Ends W' W' later _ (evalList call turns b _ later)
    rw [evalList, bind_of_ok (arguments.count_ok call turns), evalList, bind_assoc,
      bind_of_ok (evalExpr_countLiteral call turns required)]
    exact Safe.gives described ⟨rfl, arguments.positive, arguments.short⟩
  have checked : Safe W image
      (evalExpr call turns b (.callRoutine routine [argumentCount, countLiteral required]))
      fun _ _ => fits (count - 1) (Number.toCount (Float.ofNat required)) = true ∧
        1 ≤ count ∧ count < Number.exactLimit := by
    refine Safe.callNative caller (.routine routine) describes arguments
      fun W' later values inner described held _ => ?_
    obtain ⟨rfl, positive, short⟩ := held
    rw [is]
    refine (Safe.checkCount (count - 1) required described).mono fun _ _ holds => ?_
    rw [Number.toCount_ofNat (Nat.lt_of_le_of_lt (Nat.sub_le count 1) short)] at holds
    exact ⟨holds, positive, short⟩
  exact Safe.effectOf checked fun _ _ held => held

/-- The rest of a block after a check. -/
theorem Ends.afterCheck {stmt : Stmt} {fact : Prop} {good : World → Flow → Prop}
    (extends_ : W₀.Extends W)
    (first : Safe W image (exec call turns b stmt) fun _ flow => flow = .normal ∧ fact)
    (rest : fact → ∀ W' later, Follows W image W' later → W'.Describes later →
      Ends W₀ W' later good (execBlock call turns b code later)) :
    Ends W₀ W image good (execBlock call turns b (stmt :: code) image) := by
  simp only [execBlock]
  refine Safe.bindInto extends_ first fun W' later flow follows described held => ?_
  obtain ⟨rfl, holds⟩ := held
  exact rest holds W' later follows described

theorem BlockSound.checkArgs (caller : CallerSound call)
    (known : frame.kinds "arguments" = some (.arguments count))
    (rest : count = required + 1 → BlockSound call turns frame code good) :
    BlockSound call turns frame
      (.effect (.callRoutine .checkArgs [argumentCount, countLiteral required]) :: code) good := by
  intro W₀ W image b extends_ describes own
  have checked : Safe W image (exec call turns b
      (.effect (.callRoutine .checkArgs [argumentCount, countLiteral required])))
      fun _ flow => flow = .normal ∧ (count - 1 == Number.toCount (Float.ofNat required)) = true ∧
        1 ≤ count ∧ count < Number.exactLimit :=
    Safe.checkedCount caller (fun _ _ => rfl) describes own.admits known
  refine Ends.afterCheck extends_ checked fun holds W' later follows described => ?_
  obtain ⟨same, positive, short⟩ := holds
  have equal : count - 1 = Number.toCount (Float.ofNat required) := by simpa using same
  have exact_ : count = required + 1 := by
    by_cases small : required < Number.exactLimit
    · rw [Number.toCount_ofNat small] at equal
      omega
    · have large := Number.exactLimit_le_toCount (Nat.le_of_not_lt small)
      omega
  exact rest exact_ W₀ W' later b (extends_.trans follows.extends_) described (own.follows follows)

theorem BlockSound.checkArgsAtLeast (caller : CallerSound call)
    (known : frame.kinds "arguments" = some (.arguments count))
    (rest : required + 1 ≤ count → BlockSound call turns frame code good) :
    BlockSound call turns frame
      (.effect (.callRoutine .checkArgsAtLeast [argumentCount, countLiteral required]) :: code)
      good := by
  intro W₀ W image b extends_ describes own
  have checked : Safe W image (exec call turns b
      (.effect (.callRoutine .checkArgsAtLeast [argumentCount, countLiteral required])))
      fun _ flow => flow = .normal ∧
        decide (Number.toCount (Float.ofNat required) ≤ count - 1) = true ∧
          1 ≤ count ∧ count < Number.exactLimit := by
    have is : ∀ inner args, runNative inner (.routine .checkArgsAtLeast) args =
        Machine.checkCount args (fun got least => least ≤ got) ("at least " ++ toString ·) :=
      fun _ _ => rfl
    exact Safe.checkedCount caller is describes own.admits known
  refine Ends.afterCheck extends_ checked fun holds W' later follows described => ?_
  obtain ⟨enough, positive, short⟩ := holds
  have least := of_decide_eq_true enough
  have bound : required + 1 ≤ count := by
    by_cases small : required < Number.exactLimit
    · rw [Number.toCount_ofNat small] at least
      omega
    · have large := Number.exactLimit_le_toCount (Nat.le_of_not_lt small)
      omega
  exact rest bound W₀ W' later b (extends_.trans follows.extends_) described (own.follows follows)

theorem BlockSound.checkArgsAtMost (caller : CallerSound call) {limit : Nat}
    (known : frame.kinds "arguments" = some (.arguments count))
    (rest : BlockSound call turns frame code good) :
    BlockSound call turns frame
      (.effect (.callRoutine .checkArgsAtMost [argumentCount, countLiteral limit]) :: code)
      good := by
  intro W₀ W image b extends_ describes own
  have checked : Safe W image (exec call turns b
      (.effect (.callRoutine .checkArgsAtMost [argumentCount, countLiteral limit])))
      fun _ flow => flow = .normal ∧
        decide (count - 1 ≤ Number.toCount (Float.ofNat limit)) = true ∧
          1 ≤ count ∧ count < Number.exactLimit := by
    have is : ∀ inner args, runNative inner (.routine .checkArgsAtMost) args =
        Machine.checkCount args (fun got most => got ≤ most) ("at most " ++ toString ·) :=
      fun _ _ => rfl
    exact Safe.checkedCount caller is describes own.admits known
  exact Ends.afterCheck extends_ checked fun _ W' later follows described =>
    rest W₀ W' later b (extends_.trans follows.extends_) described (own.follows follows)

end Checks

section Defaults

theorem execBlock_append (first second : List Stmt) :
    execBlock call turns b (first ++ second) = (do
      match ← execBlock call turns b first with
      | .normal => execBlock call turns b second
      | flow => return flow) := by
  induction first with
  | nil => simp only [List.nil_append, execBlock, pure_bind]
  | cons stmt rest ih =>
      simp only [List.cons_append, execBlock, bind_assoc, ih]
      congr 1
      funext flow
      cases flow <;> simp only [pure_bind]

/-- A statement that does what some statements do can stand for them. -/
theorem execBlock_of_exec {stmt : Stmt} {block : List Stmt}
    (same : exec call turns b stmt image = execBlock call turns b block image) :
    execBlock call turns b (stmt :: code) image = execBlock call turns b (block ++ code) image := by
  have bound : ∀ rest : Flow → Run Flow, (exec call turns b stmt >>= rest) image =
      (execBlock call turns b block >>= rest) image := by
    intro rest
    change EStateM.bind _ _ image = EStateM.bind _ _ image
    rw [EStateM.bind, EStateM.bind, same]
  rw [execBlock_append, execBlock]
  exact bound _

theorem exec_branch {test : Expr} {yes no : List Stmt} {truth : Bool}
    (ok : evalExpr call turns b test image = .ok (.bool truth) later) :
    exec call turns b (.branch test yes no) image =
      if truth then execBlock call turns b yes later else execBlock call turns b no later := by
  rw [exec, bind_of_ok ok]
  cases truth <;> rfl

/-- A parameter gets its default where its argument is missing. -/
theorem exec_supplyDefault (describes : W.Describes image) (admits : W.Admits frame b)
    (known : frame.kinds "arguments" = some (.arguments count)) :
    exec call turns b
        (.branch (.binary .le argumentCount (countLiteral position)) [assignStmt host e] []) image =
      execBlock call turns b (if count ≤ position + 1 then [assignStmt host e] else []) image := by
  obtain ⟨address, arguments⟩ := describes.arguments admits known
  have positive := arguments.positive
  have short : count - 1 < Number.exactLimit :=
    Nat.lt_of_le_of_lt (Nat.sub_le count 1) arguments.short
  have test_ok : evalExpr call turns b (.binary .le argumentCount (countLiteral position)) image =
      .ok (.bool (decide (count ≤ position + 1))) image := by
    rw [evalExpr_operator (by simp) (arguments.count_ok call turns) (evalExpr_countLiteral call turns position)]
    change EStateM.Result.ok (Value.bool (decide
      (Float.ofNat (count - 1) ≤ Float.ofNat position))) image = _
    congr 3
    rw [Number.ofNat_le_iff short]
    exact propext (by omega)
  rw [exec_branch test_ok]
  by_cases missing : count ≤ position + 1 <;> simp [missing]

theorem BlockSound.supplyDefault (known : frame.kinds "arguments" = some (.arguments count))
    (rest : BlockSound call turns frame
      ((if count ≤ position + 1 then [assignStmt host e] else []) ++ code) good) :
    BlockSound call turns frame
      (.branch (.binary .le argumentCount (countLiteral position)) [assignStmt host e] [] :: code)
      good := by
  intro W₀ W image b extends_ describes own
  rw [execBlock_of_exec (exec_supplyDefault describes own.admits known)]
  exact rest W₀ W image b extends_ describes own

variable {params : List (String × Expr)}

/-- The first case that the number of arguments selects is that of the first missing parameter. -/
theorem chooseCase_defaultCode {n : Nat} (small : n < Number.exactLimit) (reached : position ≤ n) :
    chooseCase call turns b (countValue n) (defaultCode position params) image =
      .ok (if n - position < params.length then some (n - position) else none) image := by
  induction params generalizing position with
  | nil => simp only [defaultCode, chooseCase, List.length_nil, Nat.not_lt_zero, if_false]; rfl
  | cons param rest ih =>
      obtain ⟨host, default⟩ := param
      rw [defaultCode, chooseCase, bind_of_ok (evalExpr_countLiteral call turns position)]
      have test_eq : (countValue n).strictEq (countValue position) = decide (n = position) := by
        change (Float.ofNat n == Float.ofNat position) = _
        rw [Bool.eq_iff_iff, Number.ofNat_beq_iff small, decide_eq_true_iff]
      rw [test_eq]
      by_cases here : n = position
      · subst here
        simp only [decide_true, if_true, Nat.sub_self, List.length_cons, Nat.zero_lt_succ]
        rfl
      · simp only [here, decide_false, Bool.false_eq_true, if_false]
        rw [bind_of_ok (ih (by omega))]
        simp only [List.length_cons]
        by_cases inside : n - (position + 1) < rest.length
        · rw [if_pos inside, if_pos (by omega)]
          have next : n - (position + 1) + 1 = n - position := by omega
          rw [← next]
          rfl
        · rw [if_neg inside, if_neg (by omega)]
          rfl

theorem findDefault_defaultCode (position : Nat) (params : List (String × Expr)) :
    (defaultCode position params).findIdx? (·.isDefault) = none := by
  rw [List.findIdx?_eq_none_iff]
  induction params generalizing position with
  | nil => nofun
  | cons param rest ih =>
      intro case_ member
      rw [defaultCode] at member
      rcases List.mem_cons.mp member with rfl | later
      · rfl
      · exact ih (position + 1) case_ later

/-- From the case that was selected on, each parameter gets its default. -/
theorem execCases_defaultCode (start : Nat) :
    execCases call turns b start (defaultCode position params) =
      execBlock call turns b ((params.drop start).map fun (host, e) => assignStmt host e) := by
  induction params generalizing position start with
  | nil => simp only [defaultCode, execCases, List.drop_nil, List.map_nil, execBlock]
  | cons param rest ih =>
      obtain ⟨host, default⟩ := param
      cases start with
      | succ start =>
          rw [defaultCode, execCases]
          exact ih start
      | zero =>
          rw [defaultCode, execCases, execBlock_singleton, ih 0]
          simp only [List.drop_zero, List.map_cons, execBlock, assignStmt, exec, bind_assoc,
            pure_bind]

/-- What a choice by the number of arguments does: the parameters that are missing get their
defaults. -/
theorem exec_selectDefaults {n : Nat}
    (count : evalExpr call turns b argumentCount image = .ok (countValue n) image)
    (small : n < Number.exactLimit) (supplied : position ≤ n) :
    exec call turns b (.select argumentCount (defaultCode position params)) image =
      execBlock call turns b
        ((params.drop (n - position)).map fun (host, e) => assignStmt host e) image := by
  rw [exec, bind_of_ok count, bind_of_ok (chooseCase_defaultCode small supplied)]
  by_cases missing : n - position < params.length
  · rw [if_pos missing]
    exact congrFun (execCases_defaultCode _) image
  · rw [if_neg missing, findDefault_defaultCode, List.drop_eq_nil_of_le (Nat.le_of_not_lt missing)]
    rfl

theorem exec_selectMissing (describes : W.Describes image) (admits : W.Admits frame b)
    (known : frame.kinds "arguments" = some (.arguments count)) (supplied : position + 1 ≤ count) :
    exec call turns b (.select argumentCount (defaultCode position params)) image =
      execBlock call turns b ((params.drop (count - 1 - position)).map
        fun (host, e) => assignStmt host e) image := by
  obtain ⟨address, arguments⟩ := describes.arguments admits known
  have short : count - 1 < Number.exactLimit :=
    Nat.lt_of_le_of_lt (Nat.sub_le count 1) arguments.short
  exact exec_selectDefaults (arguments.count_ok call turns) short (by omega)

theorem BlockSound.selectDefaults (known : frame.kinds "arguments" = some (.arguments count))
    (supplied : position + 1 ≤ count)
    (rest : BlockSound call turns frame
      ((params.drop (count - 1 - position)).map (fun (host, e) => assignStmt host e) ++ code)
      good) :
    BlockSound call turns frame (.select argumentCount (defaultCode position params) :: code)
      good := by
  intro W₀ W image b extends_ describes own
  rw [execBlock_of_exec (exec_selectMissing describes own.admits known supplied)]
  exact rest W₀ W image b extends_ describes own

end Defaults

end LispScript.Discipline
