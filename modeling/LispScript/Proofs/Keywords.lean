import LispScript.Proofs.Parameters

/-!
Loops over the arguments: the list of the rest, and the search for keywords. The position at hand is
in a variable of the function's own that no other code uses.
-/

namespace LispScript.Discipline

open Script Machine Compiler

variable {call : Caller} {turns : Nat} {frame : Frame} {code body : List Stmt} {kind : Kind}
  {e : Expr} {index host allow : String} {W₀ W W' : World} {image later : Image}
  {b count first n : Nat} {address : Address} {value : Value}

section Positions

/-- A variable of one's own holds the position of an argument. -/
structure Positioned (W₀ W : World) (image : Image) (frame : Frame) (b : Nat) (index : String)
    (n : Nat) : Prop where
  describes : W.Describes image
  own : Own W₀ W image frame b
  held : (image.heap.scope b).vars[index]? = some (countValue n)

variable (call turns) in
theorem evalExpr_own (own : Own W₀ W image frame b) (describes : W.Describes image)
    (held : (image.heap.scope b).vars[index]? = some value) :
    evalExpr call turns b (.ident index) image = .ok value image :=
  evalExpr_ident (lookupVariable?_own (own.bound describes) held)

variable (call turns) in
theorem Positioned.index_ok (positioned : Positioned W₀ W image frame b index n) :
    evalExpr call turns b (.ident index) image = .ok (countValue n) image :=
  evalExpr_own call turns positioned.own positioned.describes positioned.held

/-- An assignment to a variable of one's own. -/
theorem evalExpr_assignOwn (own : Own W₀ W later frame b) (describes : W.Describes later)
    (pending : index ∈ frame.pending) (ok : evalExpr call turns b e image = .ok value later) :
    evalExpr call turns b (assignVar index e) image = .ok value
      { later with heap := later.heap.bindVariable b index value } := by
  have assigned : assignTo call turns b value (.ident index) later = .ok ()
      { later with heap := later.heap.bindVariable b index value } := by
    rw [assignTo_ident_eq, own.variableScope describes pending]
    rfl
  rw [assignVar, evalExpr, bind_of_ok ok, bind_of_ok assigned]
  rfl

theorem bindVariable_self (heap : Heap) (name : String) (value : Value)
    (bound : b < heap.scopes.size) :
    ((heap.bindVariable b name value).scope b).vars[name]? = some value := by
  rw [bindVariable_scope heap name value b bound, if_pos rfl]
  simp

theorem bindVariable_of_ne (heap : Heap) {name other : String} (value : Value)
    (bound : b < heap.scopes.size) (different : other ≠ name) :
    ((heap.bindVariable b name value).scope b).vars[other]? = (heap.scope b).vars[other]? := by
  rw [bindVariable_scope heap name value b bound, if_pos rfl, Std.TreeMap.getElem?_insert, if_neg]
  rw [Std.LawfulEqCmp.compare_eq_iff_eq]
  exact Ne.symm different

/-- The position at hand is set. -/
theorem Own.setPosition (own : Own W₀ W image frame b) (describes : W.Describes image)
    (fresh : frame.Fresh index) (n : Nat) :
    Follows W image W { image with heap := image.heap.bindVariable b index (countValue n) } ∧
      Positioned W₀ W { image with heap := image.heap.bindVariable b index (countValue n) }
        frame b index n := by
  have optional : W.Has .optional (countValue n) := .inl trivial
  obtain ⟨follows, described⟩ := own.assignHidden describes fresh optional
  exact ⟨follows, described, own.follows follows,
    bindVariable_self image.heap index (countValue n) (own.bound describes)⟩

theorem countValue_add {n m : Nat} (small : n + m < Number.exactLimit) :
    applyBinary .add (countValue n) (countValue m) image = .ok (countValue (n + m)) image := by
  change EStateM.Result.ok (Value.number (Float.ofNat n + Float.ofNat m)) image = _
  rw [Number.ofNat_add small]
  rfl

theorem countValue_sub {n m : Nat} (ordered : m ≤ n) (small : n < Number.exactLimit) :
    applyBinary .sub (countValue n) (countValue m) image = .ok (countValue (n - m)) image := by
  change EStateM.Result.ok (Value.number (Float.ofNat n - Float.ofNat m)) image = _
  rw [Number.ofNat_sub ordered small]
  rfl

variable (call turns) in
/-- The argument at a position. -/
theorem Arguments.item_ok (arguments : Arguments W image b count address)
    (position_ok : evalExpr call turns b e image = .ok (countValue n) image) (positive : 1 ≤ n)
    (inside : n < count) :
    ∃ item, evalExpr call turns b (argumentAt e) image = .ok item image ∧ W.Datum item := by
  have bound : n < (image.heap.vector address).size := by rw [arguments.size]; exact inside
  have small : n < Number.exactLimit := Nat.lt_trans inside arguments.short
  have found := Array.getElem?_eq_getElem bound
  refine ⟨(image.heap.vector address)[n], ?_, arguments.datum n _ positive found⟩
  rw [argumentAt_ok arguments.held position_ok small, found]
  rfl

end Positions

section Loops

/-- What a turn of a loop comes to: the state from which the loop goes on, or its end. -/
def Turns (W : World) (image : Image) (run : Run Flow) (next : World → Image → Prop) : Prop :=
  (∃ W' later, run image = .ok .normal later ∧ Follows W image W' later ∧
    W'.transfers = W.transfers ∧ next W' later) ∨
  Safe W image run fun _ flow => flow = .left none

/-- A loop that counts. -/
theorem Safe.repeatTurns {test : Run Value} {turn : Run Flow} {at_ : Nat → World → Image → Prop}
    {more : Nat → Bool} {next : Nat → Nat}
    (described : ∀ n W image, at_ n W image → W.Describes image)
    (test_ok : ∀ n W image, at_ n W image → test image = .ok (.bool (more n)) image)
    (turns_ : ∀ n W image, at_ n W image → more n = true → Turns W image turn (at_ (next n)))
    (limit : Nat) (start : at_ n W image) :
    Safe W image (repeatWhile none test turn limit) fun _ flow => flow = .normal := by
  induction limit generalizing n W image with
  | zero => exact Safe.exhausted (described n W image start)
  | succ limit ih =>
      rw [repeatWhile]
      change Ends W W image _ ((test >>= _) image)
      rw [bind_of_ok (test_ok n W image start)]
      cases goes : more n with
      | false => exact Safe.gives (described n W image start) rfl
      | true =>
          rcases turns_ n W image start goes with ⟨W', later, ok, follows, same, held⟩ | ended
          · change Ends W W image _ ((turn >>= _) image)
            rw [bind_of_ok ok]
            exact Ends.step follows.leads same (Ends.since (ih held) follows.extends_)
          · refine ended.bind fun W' later flow follows describes left => ?_
            subst left
            exact Safe.gives describes rfl

/-- A turn of a loop is its body and then its update. -/
theorem Turns.iterate {body : Run Flow} {next : World → Image → Prop} {run : Run Value}
    (first : Turns W image body fun W' later => ∃ W'' value last,
      run later = .ok value last ∧ Follows W' later W'' last ∧ W''.transfers = W'.transfers ∧
        next W'' last) :
    Turns W image (do
      match ← body with
      | .normal => do
          let _ ← run
          return .normal
      | flow => return flow) next := by
  rcases first with ⟨W', later, ok, follows, same, W'', value, last, updated, further, still, held⟩ |
    ended
  · refine .inl ⟨W'', last, ?_, follows.trans further, still.trans same, held⟩
    rw [bind_of_ok ok]
    change (run >>= _) later = _
    rw [bind_of_ok updated]
    rfl
  · refine .inr (ended.bind fun W' later flow follows describes left => ?_)
    subst left
    exact Safe.gives describes rfl

end Loops

section Rest

/-- A call of a native function whose arguments are read without effect. -/
theorem evalExpr_native (caller : CallerSound call) (n : Native) (describes : W.Describes image)
    {args : List Expr} {values : List Value}
    (args_ok : evalList call turns b args image = .ok values image) :
    evalExpr call turns b (.call (.support (.native n)) args) image = .error .outOfSteps image ∨
      ∃ inner, evalExpr call turns b (.call (.support (.native n)) args) image =
        runNative inner n values image := by
  have callee_ok : evalExpr call turns b (.support (.native n)) image =
      .ok (.function (Image.nativeAddress n)) image := by
    rw [evalExpr]
    rfl
  rw [evalExpr_call (by intro params body; nofun), bind_of_ok callee_ok, bind_of_ok args_ok]
  rcases caller.native W image n values describes with ended | ⟨inner, -, same⟩
  · exact .inl ended
  · exact .inr ⟨inner, same⟩

/-- The value of a call of `CONS` on variables' values. -/
theorem evalExpr_cons (caller : CallerSound call) (describes : W.Describes image) {x y : Expr}
    {car cdr : Value} (car_ok : evalExpr call turns b x image = .ok car image)
    (cdr_ok : evalExpr call turns b y image = .ok cdr image) :
    evalExpr call turns b (.callPrimitive .cons [x, y]) image = .error .outOfSteps image ∨
      evalExpr call turns b (.callPrimitive .cons [x, y]) image =
        .ok (.cons image.heap.cells.size)
          { image with heap := (image.heap.allocCell car cdr).2 } := by
  have args_ok : evalList call turns b [x, y] image = .ok [car, cdr] image := by
    rw [evalList, bind_of_ok car_ok, evalList, bind_assoc, bind_of_ok cdr_ok, evalList]
    rfl
  rcases evalExpr_native caller (.primitive .cons) describes args_ok with ended | ⟨inner, same⟩
  · exact .inl ended
  · exact .inr (same.trans rfl)

/-- A new value for a variable of one's own that holds data. -/
theorem Own.assignKnown (own : Own W₀ W image frame b) (describes : W.Describes image)
    (known : frame.kinds host = some .datum) (ne_values : host ≠ "values") (datum : W.Datum value) :
    Follows W image W { image with heap := image.heap.bindVariable b host value } ∧
      W.Describes { image with heap := image.heap.bindVariable b host value } := by
  refine ⟨⟨World.Extends.refl W, Leads.bindVariable (World.Grows.refl W)
    (own.bound describes) fun layout kind found listed => ?_⟩,
    describes.assign own.layout (fun kind listed => ?_) (fun same => absurd same ne_values)
      (fun kind listed => ?_) fun unlisted => ?_⟩
  · rw [own.layout, Option.some.injEq] at found
    rw [← found, known, Option.some.injEq] at listed
    exact listed ▸ id
  · rw [known, Option.some.injEq] at listed
    exact listed ▸ datum
  · rw [known, Option.some.injEq] at listed
    exact listed ▸ id
  · exact absurd (known.symm.trans unlisted) nofun

/-- The list of the arguments from a position on gets one more. -/
theorem Turns.collect (caller : CallerSound call)
    (known : frame.kinds "arguments" = some (.arguments count))
    (knownHost : frame.kinds host = some .datum) (ne_values : host ≠ "values")
    (pendingHost : host ∈ frame.pending) (distinct : host ≠ index)
    (positioned : Positioned W₀ W image frame b index n) (positive : 1 ≤ n) (inside : n < count) :
    Turns W image (execBlock call turns b
        [assignStmt host (.callPrimitive .cons [argumentAt (.ident index), .ident host])])
      fun W' later => Positioned W₀ W' later frame b index n := by
  have index_ok := positioned.index_ok call turns
  obtain ⟨describes, own, held⟩ := positioned
  obtain ⟨address, arguments⟩ := describes.arguments own.admits known
  obtain ⟨item, item_ok, datum⟩ := arguments.item_ok call turns index_ok positive inside
  obtain ⟨old, old_held, oldDatum, -⟩ := describes.lookup own.admits knownHost
  rw [execBlock_singleton, assignStmt]
  rcases evalExpr_cons caller describes item_ok (evalExpr_ident old_held) with ended | made_ok
  · refine .inr ?_
    have run_eq : exec call turns b (.effect (assignVar host
        (.callPrimitive .cons [argumentAt (.ident index), .ident host]))) image =
          .error .outOfSteps image := by
      rw [exec, assignVar, evalExpr]
      change EStateM.bind (EStateM.bind _ _) _ image = _
      rw [EStateM.bind, EStateM.bind, ended]
    change Ends W W image _ (exec call turns b _ image)
    rw [run_eq]
    exact Safe.exhausted describes
  · let made : Image := { image with heap := (image.heap.allocCell item old).2 }
    have followsMade : Follows W image W made := Follows.stay (World.Extends.refl W) rfl rfl
    have describesMade : W.Describes made := describes.allocCell datum oldDatum
    have ownMade := own.follows followsMade
    have assign_ok := evalExpr_assignOwn ownMade describesMade pendingHost made_ok
    have cell : W.Datum (.cons image.heap.cells.size) := trivial
    obtain ⟨follows, described⟩ := ownMade.assignKnown describesMade knownHost ne_values cell
    refine .inl ⟨W, _, ?_, followsMade.trans follows, rfl, described, ownMade.follows follows, ?_⟩
    · rw [exec, bind_of_ok assign_ok]
      rfl
    · exact (bindVariable_of_ne made.heap _ (ownMade.bound describesMade) (Ne.symm distinct)).trans
        held

/-- The loop that collects the rest of the arguments. -/
theorem Safe.collectLoop (caller : CallerSound call)
    (known : frame.kinds "arguments" = some (.arguments count))
    (knownHost : frame.kinds host = some .datum) (ne_values : host ≠ "values")
    (pendingHost : host ∈ frame.pending) (freshIndex : frame.Fresh index)
    (pendingIndex : index ∈ frame.pending) (distinct : host ≠ index) (first_pos : 1 ≤ first)
    (describes : W.Describes image) (own : Own W₀ W image frame b) :
    Safe W image (exec call turns b (.iterate (assignVar index argumentCount)
      (.binary .ge (.ident index) (countLiteral first))
      (assignVar index (.binary .sub (.ident index) (countLiteral 1)))
      [assignStmt host (.callPrimitive .cons [argumentAt (.ident index), .ident host])]))
      fun _ flow => flow = .normal := by
  obtain ⟨address, arguments⟩ := describes.arguments own.admits known
  have short := arguments.short
  have start_ok := evalExpr_assignOwn own describes pendingIndex
    (arguments.count_ok call turns)
  obtain ⟨follows, positioned⟩ := own.setPosition describes freshIndex (count - 1)
  let at_ (n : Nat) (W : World) (image : Image) : Prop :=
    Positioned W₀ W image frame b index n ∧ n < count
  have start : at_ (count - 1) W
      { image with heap := image.heap.bindVariable b index (countValue (count - 1)) } :=
    ⟨positioned, by have := arguments.positive; omega⟩
  have test_ok : ∀ n W image, at_ n W image →
      evalExpr call turns b (.binary .ge (.ident index) (countLiteral first)) image =
        .ok (.bool (decide (first ≤ n))) image := by
    intro n W image held
    rw [evalExpr_operator (by simp) (held.1.index_ok call turns) (evalExpr_countLiteral call turns first)]
    change EStateM.Result.ok (Value.bool (decide (Float.ofNat first ≤ Float.ofNat n))) image = _
    congr 3
    exact propext (Number.le_ofNat_iff (Nat.lt_trans held.2 short))
  have turn : ∀ n W image, at_ n W image → decide (first ≤ n) = true → Turns W image (do
      match ← execBlock call turns b
          [assignStmt host (.callPrimitive .cons [argumentAt (.ident index), .ident host])] with
      | .normal => do
          let _ ← evalExpr call turns b
            (assignVar index (.binary .sub (.ident index) (countLiteral 1)))
          return .normal
      | flow => return flow) (at_ (n - 1)) := by
    intro n W image held goes
    have low := of_decide_eq_true goes
    refine Turns.iterate ?_
    rcases Turns.collect caller known knownHost ne_values pendingHost distinct held.1
      (Nat.le_trans first_pos low) held.2 with ⟨W', later, ok, follows, same, kept⟩ | ended
    · refine .inl ⟨W', later, ok, follows, same, ?_⟩
      have less_ok : evalExpr call turns b (.binary .sub (.ident index) (countLiteral 1)) later =
          .ok (countValue (n - 1)) later := by
        rw [evalExpr_operator (by simp) (kept.index_ok call turns) (evalExpr_countLiteral call turns 1)]
        exact countValue_sub (Nat.le_trans first_pos low) (Nat.lt_trans held.2 short)
      obtain ⟨further, last⟩ := kept.own.setPosition kept.describes freshIndex (n - 1)
      exact ⟨W', _, _, evalExpr_assignOwn kept.own kept.describes pendingIndex less_ok, further, rfl,
        last, Nat.lt_of_le_of_lt (Nat.sub_le n 1) held.2⟩
    · exact .inr ended
  rw [exec]
  change Ends W W image _ ((evalExpr call turns b _ >>= _) image)
  rw [bind_of_ok start_ok]
  refine Ends.step follows.leads rfl (Ends.since ?_ follows.extends_)
  exact Safe.repeatTurns (fun n W image held => held.1.describes) test_ok turn turns start

theorem BlockSound.collectRest (caller : CallerSound call)
    (known : frame.kinds "arguments" = some (.arguments count)) (first_pos : 1 ≤ first)
    (freshHost : frame.Fresh host) (freshIndex : frame.Fresh index) (distinct : host ≠ index)
    (rest : BlockSound call turns (frame.bind host .datum) code good) :
    BlockSound call turns frame (collectRest host index first ++ code) good := by
  intro W₀ W image b extends_ describes own
  have nil_datum : ExprSound call turns frame .nil .datum := .widen Kind.symbol_within_datum .nil
  rw [Compiler.collectRest, List.cons_append]
  refine Ends.afterDefine own describes extends_ freshHost.1
    (fun same => absurd same freshHost.ne_values) id nil_datum
    fun W₁ image₁ extends₁ described₁ own₁ => ?_
  let inner := (frame.bind host .datum).pend [host]
  have freshIndex' : inner.Fresh index := freshIndex.bind (Ne.symm distinct) .datum
  have arguments_ne : "arguments" ≠ host := by
    rintro rfl
    exact freshHost.2 (by decide)
  have known' : (inner.pend [index]).kinds "arguments" = some (.arguments count) :=
    (Layout.bind_of_ne frame.kinds .datum arguments_ne).trans known
  have knownHost : (inner.pend [index]).kinds host = some .datum :=
    Layout.bind_self frame.kinds host .datum
  refine BlockSound.declare freshIndex' ?_ W₀ W₁ image₁ b extends₁ described₁ own₁
  intro W₀ W image b extends_ describes own
  refine Ends.afterEffect extends_ (Safe.collectLoop caller known' knownHost freshHost.ne_values
    (List.mem_cons_of_mem _ List.mem_cons_self) freshIndex' List.mem_cons_self distinct first_pos
    describes own) fun W' later follows described => ?_
  exact rest W₀ W' later b (extends_.trans follows.extends_) described
    (own.follows follows).drop.drop

end Rest

section Pairs

variable {flag? : Option String} {keyword default allowKey : Expr} {keywords : List Expr}

/-- A position from which there are pairs only is not that of the last argument. -/
theorem pair_inside (paired : count ≤ first ∨ 2 ∣ count - first) (low : first ≤ n)
    (even : 2 ∣ n - first) (inside : n < count) :
    n + 1 < count := by
  rcases paired with few | pairs
  · omega
  · omega

/-- A look at every second argument, at each of which the body ends normally without having done
anything, or leaves the loop. -/
theorem Safe.scanPairs (known : frame.kinds "arguments" = some (.arguments count))
    (paired : count ≤ first ∨ 2 ∣ count - first) (freshIndex : frame.Fresh index)
    (pendingIndex : index ∈ frame.pending)
    (turn : ∀ W image n, Positioned W₀ W image frame b index n → first ≤ n → n + 1 < count →
      execBlock call turns b body image = .ok .normal image ∨
        Safe W image (execBlock call turns b body) fun _ flow => flow = .left none)
    (describes : W.Describes image) (own : Own W₀ W image frame b) :
    Safe W image (exec call turns b (scanPairs index first body)) fun _ flow =>
      flow = .normal := by
  obtain ⟨address, arguments⟩ := describes.arguments own.admits known
  have short := arguments.short
  have start_ok := evalExpr_assignOwn own describes pendingIndex
    (evalExpr_countLiteral call turns first)
  obtain ⟨follows, positioned⟩ := own.setPosition describes freshIndex first
  let at_ (n : Nat) (W : World) (image : Image) : Prop :=
    Positioned W₀ W image frame b index n ∧ first ≤ n ∧ 2 ∣ n - first
  have start : at_ first W
      { image with heap := image.heap.bindVariable b index (countValue first) } :=
    ⟨positioned, Nat.le_refl _, by simp⟩
  have test_ok : ∀ n W image, at_ n W image →
      evalExpr call turns b (.binary .lt (.ident index) argumentsLength) image =
        .ok (.bool (decide (n < count))) image := by
    intro n W image held
    obtain ⟨address, arguments⟩ := held.1.describes.arguments held.1.own.admits known
    rw [evalExpr_operator (by simp) (held.1.index_ok call turns) (arguments.length_ok call turns)]
    change EStateM.Result.ok (Value.bool (decide (Float.ofNat n < Float.ofNat count))) image = _
    congr 3
    exact propext (Number.lt_ofNat_iff short)
  have turn' : ∀ n W image, at_ n W image → decide (n < count) = true → Turns W image (do
      match ← execBlock call turns b body with
      | .normal => do
          let _ ← evalExpr call turns b
            (assignVar index (.binary .add (.ident index) (countLiteral 2)))
          return .normal
      | flow => return flow) (at_ (n + 2)) := by
    intro n W image held goes
    obtain ⟨positioned, low, even⟩ := held
    have inside := pair_inside paired low even (of_decide_eq_true goes)
    refine Turns.iterate ?_
    rcases turn W image n positioned low inside with ok | ended
    · refine .inl ⟨W, image, ok, Follows.refl W image, rfl, ?_⟩
      have more_ok : evalExpr call turns b (.binary .add (.ident index) (countLiteral 2)) image =
          .ok (countValue (n + 2)) image := by
        rw [evalExpr_operator (by simp) (positioned.index_ok call turns) (evalExpr_countLiteral call turns 2)]
        exact countValue_add (by omega)
      obtain ⟨further, last⟩ :=
        positioned.own.setPosition positioned.describes freshIndex (n + 2)
      exact ⟨W, _, _, evalExpr_assignOwn positioned.own positioned.describes pendingIndex more_ok,
        further, rfl, last, by omega, by omega⟩
    · exact .inr ended
  rw [Compiler.scanPairs, exec]
  change Ends W W image _ ((evalExpr call turns b _ >>= _) image)
  rw [bind_of_ok start_ok]
  refine Ends.step follows.leads rfl (Ends.since ?_ follows.extends_)
  exact Safe.repeatTurns (fun n W image held => held.1.describes) test_ok turn' turns start

/-- A check for an even number. -/
theorem Safe.checkEven {inner : Caller} (number : Float) (describes : W.Describes image)
    {fact : Prop}
    (gives : Number.toCount number % 2 = 0 → fact) :
    Safe W image (runNative inner (.routine .checkKeywordPairs) [.number number]) fun _ _ =>
      fact := by
  change Safe W image (do
    if (← Machine.count (.number number)) % 2 = 0 then return Value.undefined
    else Run.fail .oddKeywords) _
  have counted : Safe W image (Machine.count (.number number)) fun _ n =>
      n = Number.toCount number := by
    rw [Machine.count]
    split
    · exact Safe.gives describes rfl
    · exact Safe.typeError describes _ _
  refine counted.bind fun W' later n _ described same => ?_
  subst same
  split
  · rename_i even
    exact Safe.gives described (gives even)
  · exact Safe.fail described trivial

/-- The check that what follows a position comes in pairs. -/
theorem Safe.pairCheck (caller : CallerSound call)
    (known : frame.kinds "arguments" = some (.arguments count)) (describes : W.Describes image)
    (admits : W.Admits frame b) :
    Safe W image (exec call turns b (pairCheck first)) fun _ flow =>
      flow = .normal ∧ (count ≤ first ∨ 2 ∣ count - first) := by
  let extra := Expr.binary .sub argumentsLength (countLiteral first)
  let number := Float.ofNat count - Float.ofNat first
  have extra_ok : ∀ (W' : World) (later : Image), W'.Describes later → W'.Admits frame b →
      evalExpr call turns b extra later = .ok (.number number) later := by
    intro W' later described admits
    obtain ⟨address, arguments⟩ := described.arguments admits known
    rw [evalExpr_operator (by simp) (arguments.length_ok call turns) (evalExpr_countLiteral call turns first)]
    rfl
  have test_ok : evalExpr call turns b (.binary .gt extra (countLiteral 0)) image =
      .ok (.bool (decide (Float.ofNat 0 < number))) image := by
    rw [evalExpr_operator (by simp) (extra_ok W image describes admits) (evalExpr_countLiteral call turns 0)]
    rfl
  obtain ⟨address, arguments⟩ := describes.arguments admits known
  have number_eq : first < count → number = Float.ofNat (count - first) := fun more =>
    Number.ofNat_sub (Nat.le_of_lt more) arguments.short
  change Ends W W image _ (exec call turns b (.branch _ _ _) image)
  rw [exec_branch test_ok]
  split
  · have checked : Safe W image (evalExpr call turns b (.callRoutine .checkKeywordPairs [extra]))
        fun _ _ => count ≤ first ∨ 2 ∣ count - first := by
      have extras : ∀ W' later, Follows W image W' later → W'.Describes later →
          Safe W' later (evalList call turns b [extra]) fun _ values =>
            values = [.number number] := by
        intro W' later follows described
        change Ends W' W' later _ (evalList call turns b _ later)
        rw [evalList, bind_of_ok (extra_ok W' later described (follows.leads.admits admits))]
        exact Safe.gives described rfl
      refine Safe.callNative caller (.routine .checkKeywordPairs) describes extras
        fun W' later values inner described held _ => ?_
      subst held
      refine Safe.checkEven number described fun even => ?_
      by_cases few : count ≤ first
      · exact .inl few
      · rw [number_eq (by omega), Number.toCount_ofNat
          (Nat.lt_of_le_of_lt (Nat.sub_le count first) arguments.short)] at even
        exact .inr (Nat.dvd_of_mod_eq_zero even)
    rw [execBlock_singleton]
    exact Safe.effectOf checked fun _ _ held => held
  · rename_i small
    refine Safe.gives describes ⟨rfl, ?_⟩
    by_contra more
    have less : first < count := by
      by_contra few
      exact more (.inl (by omega))
    rw [number_eq less] at small
    have positive : Float.ofNat 0 < Float.ofNat (count - first) :=
      (Number.ofNat_lt_iff (by decide)).mpr (by omega)
    exact small (decide_eq_true positive)

theorem BlockSound.pairCheck (caller : CallerSound call)
    (known : frame.kinds "arguments" = some (.arguments count))
    (rest : (count ≤ first ∨ 2 ∣ count - first) → BlockSound call turns frame code good) :
    BlockSound call turns frame (pairCheck first :: code) good := by
  intro W₀ W image b extends_ describes own
  refine Ends.afterCheck extends_ (Safe.pairCheck caller known describes own.admits)
    fun paired W' later follows described => ?_
  exact rest paired W₀ W' later b (extends_.trans follows.extends_) described (own.follows follows)

/-- A constant is read without effect. -/
theorem Frame.Constant.ok {code : Expr} (constant : frame.Constant code)
    (describes : W.Describes image) (admits : W.Admits frame b) :
    ∃ value, evalExpr call turns b code image = .ok value image := by
  rcases constant with rfl | rfl | ⟨name, rfl, known⟩
  · exact ⟨.nil, by rw [Expr.nil, evalExpr]; rfl⟩
  · exact ⟨.ofBool true, by rw [Expr.t, evalExpr]; rfl⟩
  · obtain ⟨value, held, -⟩ := describes.lookup admits known
    exact ⟨value, evalExpr_ident held⟩

variable (call turns) in
/-- The argument after the one at hand. -/
theorem Positioned.paired_ok (positioned : Positioned W₀ W image frame b index n)
    (arguments : Arguments W image b count address) (inside : n + 1 < count) :
    ∃ item, evalExpr call turns b (pairedArgument index) image = .ok item image ∧ W.Datum item := by
  have short := arguments.short
  have next_ok : evalExpr call turns b (.binary .add (.ident index) (countLiteral 1)) image =
      .ok (countValue (n + 1)) image := by
    rw [evalExpr_operator (by simp) (positioned.index_ok call turns) (evalExpr_countLiteral call turns 1)]
    exact countValue_add (by omega)
  exact arguments.item_ok call turns next_ok (by omega) inside

variable (call turns) in
/-- A test of the argument at hand against a constant. -/
theorem Positioned.test_ok {op : BinaryOp} (equality : op = .strictEq ∨ op = .strictNe)
    (positioned : Positioned W₀ W image frame b index n)
    (arguments : Arguments W image b count address) (positive : 1 ≤ n) (inside : n < count)
    (constant : frame.Constant e) :
    ∃ truth, evalExpr call turns b (.binary op (argumentAt (.ident index)) e) image =
      .ok (.bool truth) image := by
  obtain ⟨item, item_ok, -⟩ := arguments.item_ok call turns (positioned.index_ok call turns) positive inside
  obtain ⟨value, value_ok⟩ := constant.ok positioned.describes positioned.own.admits
  rcases equality with rfl | rfl
  · exact ⟨item.strictEq value, by rw [evalExpr_operator (by simp) item_ok value_ok]; rfl⟩
  · exact ⟨!item.strictEq value, by rw [evalExpr_operator (by simp) item_ok value_ok]; rfl⟩

/-- The argument of a keyword is put in a variable of one's own, and the loop is left. -/
theorem Safe.takeArgument {flags : List Stmt} (positioned : Positioned W₀ W image frame b index n)
    (known : frame.kinds "arguments" = some (.arguments count)) (inside : n + 1 < count)
    (fresh : frame.Fresh host) (pending : host ∈ frame.pending)
    (flagged : ∀ W' later, W'.Describes later → W'.Admits frame b →
      Safe W' later (execBlock call turns b flags) fun _ flow => flow = .normal) :
    Safe W image (execBlock call turns b
        ([assignStmt host (pairedArgument index)] ++ flags ++ [.leave none])) fun _ flow =>
      flow = .left none := by
  have describes := positioned.describes
  have own := positioned.own
  obtain ⟨address, arguments⟩ := describes.arguments own.admits known
  obtain ⟨item, item_ok, datum⟩ :=
    positioned.paired_ok call turns arguments inside
  have optional : W.Has .optional item := .inl datum
  obtain ⟨follows, described⟩ := own.assignHidden describes fresh optional
  have assigned : exec call turns b (assignStmt host (pairedArgument index)) image = .ok .normal
      { image with heap := image.heap.bindVariable b host item } := by
    rw [assignStmt, exec, bind_of_ok (evalExpr_assignOwn own describes pending item_ok)]
    rfl
  rw [List.append_assoc, List.singleton_append]
  change Ends W W image _ (execBlock call turns b _ image)
  rw [execBlock, bind_of_ok assigned]
  refine Ends.step follows.leads rfl ?_
  change Ends W W _ _ (execBlock call turns b _ _)
  rw [execBlock_append]
  refine Safe.bind (flagged W _ described (follows.leads.admits own.admits))
    fun W' later flow _ described normal => ?_
  subst normal
  rw [execBlock_singleton, exec]
  exact Safe.gives described rfl

/-- The search for a keyword: it ends with the argument in the variable, or changes nothing. -/
theorem Safe.searchLoop (known : frame.kinds "arguments" = some (.arguments count))
    (first_pos : 1 ≤ first) (paired : count ≤ first ∨ 2 ∣ count - first)
    (freshHost : frame.Fresh host) (pendingHost : host ∈ frame.pending)
    (freshIndex : frame.Fresh index) (pendingIndex : index ∈ frame.pending)
    (constant : frame.Constant keyword) {flags : List Stmt}
    (flagged : ∀ W' later, W'.Describes later → W'.Admits frame b →
      Safe W' later (execBlock call turns b flags) fun _ flow => flow = .normal)
    (describes : W.Describes image) (own : Own W₀ W image frame b) :
    Safe W image (exec call turns b (Compiler.scanPairs index first
        [.branch (.binary .strictEq (argumentAt (.ident index)) keyword)
          ([assignStmt host (pairedArgument index)] ++ flags ++ [.leave none]) []])) fun _ flow =>
      flow = .normal := by
  refine Safe.scanPairs known paired freshIndex pendingIndex
    (fun W image n positioned low inside => ?_) describes own
  obtain ⟨address, arguments⟩ := positioned.describes.arguments positioned.own.admits known
  obtain ⟨truth, test_ok⟩ := positioned.test_ok call turns (.inl rfl) arguments
    (Nat.le_trans first_pos low) (Nat.lt_of_succ_lt inside) constant
  rw [execBlock_singleton]
  cases truth with
  | false =>
      refine .inl ?_
      rw [exec_branch test_ok]
      rfl
  | true =>
      refine .inr ?_
      change Ends W W image _ (exec call turns b _ image)
      rw [exec_branch test_ok]
      exact Safe.takeArgument positioned known inside freshHost pendingHost flagged

/-- A variable of one's own that has a value gets a kind. -/
theorem Own.recognise (own : Own W₀ W image frame b) (describes : W.Describes image)
    (extends_ : W₀.Extends W) (fresh : frame.kinds host = none)
    (held : (image.heap.scope b).vars[host]? = some value) (has : W.Has kind value)
    (plain : ¬ kind.IsToken) :
    W₀.Extends (W.bindAt b host kind) ∧ Leads W image (W.bindAt b host kind) image ∧
      (W.bindAt b host kind).Describes image ∧
        Own W₀ (W.bindAt b host kind) image (frame.bind host kind) b := by
  have grows : W.Grows (W.bindAt b host kind) := World.grows_bindAt own.layout fresh
  have found : (W.bindAt b host kind).scopes[b]? = some (Layout.bind frame.kinds host kind) := by
    rw [World.bindAt_scopes, if_pos rfl, own.layout]
    rfl
  refine ⟨extends_.bindAt host kind own.later,
    ⟨grows, fun _ layout _ => ScopeKept.refl layout _, fun _ _ => rfl⟩,
    describes.recognise own.layout fresh held has plain, own.later, found, own.isFunction,
    own.pending, fun name manyValues token member known heldToken => ?_⟩
  change Layout.bind frame.kinds host kind name = _ at known
  by_cases same : name = host
  · subst same
    rw [Layout.bind_self, Option.some.injEq] at known
    subst known
    exact absurd trivial plain
  · rw [Layout.bind_of_ne _ _ same] at known
    exact own.tokens name manyValues token member known heldToken

/-- After the search the variable has the argument or gets the default. -/
theorem BlockSound.searchKey (known : frame.kinds "arguments" = some (.arguments count))
    (first_pos : 1 ≤ first) (paired : count ≤ first ∨ 2 ∣ count - first)
    (freshHost : frame.Fresh host) (freshIndex : frame.Fresh index)
    (pendingHost : host ∈ frame.pending) (pendingIndex : index ∈ frame.pending)
    (constant : frame.Constant keyword)
    (flag_known : ∀ flag ∈ flag?, frame.kinds flag = some .datum)
    (default_datum : ExprSound call turns frame default .datum)
    (rest : BlockSound call turns (frame.bind host .datum) code good) :
    BlockSound call turns frame (keyCode index first host flag? keyword default ++ code) good := by
  intro W₀ W image b extends_ describes own
  have t_datum : ExprSound call turns frame .t .datum := .widen Kind.symbol_within_datum .t
  have flagged : ∀ (W' : World) (later : Image), W'.Describes later → W'.Admits frame b →
      Safe W' later (execBlock call turns b (flag?.toList.map fun flag => assignStmt flag .t))
        fun _ flow => flow = .normal := by
    intro W' later described admits
    cases flag? with
    | none => exact Safe.gives described rfl
    | some flag =>
        have assign : ExprSound call turns frame (assignVar flag .t) .datum :=
          .assign (flag_known flag rfl) t_datum
        change Safe W' later (execBlock call turns b [assignStmt flag .t]) _
        rw [execBlock_singleton]
        exact Safe.effect assign described admits
  rw [keyCode, List.cons_append, List.singleton_append]
  refine Ends.afterEffect extends_ (Safe.searchLoop known first_pos paired freshHost pendingHost
    freshIndex pendingIndex constant flagged describes own) fun W₁ image₁ follows described => ?_
  rw [List.singleton_append]
  have extends₁ := extends_.trans follows.extends_
  have own₁ := own.follows follows
  obtain ⟨value, held⟩ := contains_iff_exists.mp (own₁.pending host pendingHost)
  have optional : W₁.Has .optional value :=
    (described.scopes b frame.kinds own₁.layout).hidden host value held freshHost.1 freshHost.2
  have test_ok : evalExpr call turns b (.binary .strictEq (.ident host) .undefined) image₁ =
      .ok (.bool (value.strictEq .undefined)) image₁ := by
    have undefined_ok : evalExpr call turns b .undefined image₁ = .ok .undefined image₁ := by
      rw [evalExpr]
      rfl
    rw [evalExpr_operator (by simp) (evalExpr_own call turns own₁ described held) undefined_ok]
    rfl
  cases missing : value.strictEq .undefined with
  | true =>
      rw [missing] at test_ok
      rw [execBlock_of_exec ((exec_branch test_ok).trans (if_pos rfl))]
      exact BlockSound.settle freshHost pendingHost default_datum rest W₀ W₁ image₁ b extends₁
        described own₁
  | false =>
      rw [missing] at test_ok
      have skipped : exec call turns b (.branch (.binary .strictEq (.ident host) .undefined)
          [assignStmt host default] []) image₁ = execBlock call turns b [] image₁ :=
        (exec_branch test_ok).trans (if_neg (by simp))
      rw [execBlock_of_exec skipped]
      have datum : W₁.Has .datum value := by
        rcases optional with datum | rfl
        · exact datum
        · contradiction
      obtain ⟨extended, leads, recognised, ownLast⟩ :=
        own₁.recognise described extends₁ freshHost.1 held datum id
      exact Ends.step leads rfl (rest W₀ _ image₁ b extended recognised ownLast)

/-- Tests that are joined have a truth value. -/
theorem foldl_and_ok {tests : List Expr} {test : Expr}
    (each : ∀ t ∈ tests, ∃ truth, evalExpr call turns b t image = .ok (.bool truth) image)
    (first : ∃ truth, evalExpr call turns b test image = .ok (.bool truth) image) :
    ∃ truth, evalExpr call turns b (tests.foldl (Expr.binary .and) test) image =
      .ok (.bool truth) image := by
  induction tests generalizing test with
  | nil => exact first
  | cons next rest ih =>
      obtain ⟨⟨right, right_ok⟩, eachRest⟩ := List.forall_mem_cons.mp each
      obtain ⟨left, left_ok⟩ := first
      refine ih eachRest ⟨left && right, ?_⟩
      rw [evalExpr, bind_of_ok left_ok]
      cases left with
      | false => rfl
      | true => exact right_ok

/-- The test for an argument that is none of some keywords. -/
def unknownTest (index : String) (keys : List Expr) : Expr :=
  match keys.map (Expr.binary .strictNe (argumentAt (.ident index))) with
  | [] => .bool true
  | test :: tests => tests.foldl (Expr.binary .and) test

variable (call turns) in
theorem Positioned.unknown_ok {keys : List Expr}
    (positioned : Positioned W₀ W image frame b index n)
    (arguments : Arguments W image b count address) (positive : 1 ≤ n) (inside : n < count)
    (constant : ∀ key ∈ keys, frame.Constant key) :
    ∃ truth, evalExpr call turns b (unknownTest index keys) image = .ok (.bool truth) image := by
  have each : ∀ key ∈ keys, ∃ truth, evalExpr call turns b
      (.binary .strictNe (argumentAt (.ident index)) key) image = .ok (.bool truth) image :=
    fun key member => positioned.test_ok call turns (.inr rfl) arguments positive inside (constant key member)
  cases keys with
  | nil => exact ⟨true, by rw [unknownTest, List.map_nil, evalExpr]; rfl⟩
  | cons key rest =>
      obtain ⟨first, others⟩ := List.forall_mem_cons.mp each
      refine foldl_and_ok (fun t member => ?_) first
      obtain ⟨other, inRest, rfl⟩ := List.mem_map.mp member
      exact others other inRest

/-- The complaint about a keyword does not return. -/
theorem Safe.complain (caller : CallerSound call) {good : World → Flow → Prop} {item : Value}
    (item_ok : evalExpr call turns b e image = .ok item image) (describes : W.Describes image) :
    Safe W image (exec call turns b (.effect (.callRoutine .unknownKeyword [e]))) good := by
  have args_ok : evalList call turns b [e] image = .ok [item] image := by
    rw [evalList, bind_of_ok item_ok, evalList]
    rfl
  have failed : Safe W image (evalExpr call turns b (.callRoutine .unknownKeyword [e]))
      fun _ _ => False := by
    change Ends W W image _ (evalExpr call turns b (.call (.support (.native _)) [e]) image)
    rcases evalExpr_native caller (.routine .unknownKeyword) describes args_ok with
      ended | ⟨inner, same⟩
    · rw [ended]
      exact Safe.exhausted describes
    · rw [same]
      exact Safe.described (Safe.fail describes trivial)
  rw [exec]
  exact failed.bind fun _ _ _ _ _ impossible => impossible.elim

/-- The complaint about keywords that are not known. -/
theorem Safe.complaintLoop (caller : CallerSound call)
    (known : frame.kinds "arguments" = some (.arguments count)) (first_pos : 1 ≤ first)
    (paired : count ≤ first ∨ 2 ∣ count - first) (freshIndex : frame.Fresh index)
    (pendingIndex : index ∈ frame.pending) {keys : List Expr}
    (constant : ∀ key ∈ keys, frame.Constant key) (describes : W.Describes image)
    (own : Own W₀ W image frame b) :
    Safe W image (exec call turns b (Compiler.scanPairs index first
        [.branch (unknownTest index keys)
          [.effect (.callRoutine .unknownKeyword [argumentAt (.ident index)])] []])) fun _ flow =>
      flow = .normal := by
  refine Safe.scanPairs known paired freshIndex pendingIndex
    (fun W image n positioned low inside => ?_) describes own
  obtain ⟨address, arguments⟩ := positioned.describes.arguments positioned.own.admits known
  have positive := Nat.le_trans first_pos low
  have inside' := Nat.lt_of_succ_lt inside
  obtain ⟨truth, test_ok⟩ :=
    positioned.unknown_ok call turns arguments positive inside' constant
  rw [execBlock_singleton]
  cases truth with
  | false =>
      refine .inl ?_
      rw [exec_branch test_ok]
      rfl
  | true =>
      refine .inr ?_
      change Ends W W image _ (exec call turns b _ image)
      rw [exec_branch test_ok, if_pos rfl, execBlock_singleton]
      obtain ⟨item, item_ok, -⟩ := arguments.item_ok call turns (positioned.index_ok call turns) positive inside'
      exact Safe.complain caller item_ok positioned.describes

variable (call turns) in
/-- The test whether the call waived the complaint. -/
theorem unwaived_ok (own : Own W₀ W image frame b) (describes : W.Describes image)
    (pending : allow ∈ frame.pending) :
    ∃ truth, evalExpr call turns b (.binary .or (.binary .strictEq (.ident allow) .undefined)
      (.binary .strictEq (.ident allow) .nil)) image = .ok (.bool truth) image := by
  obtain ⟨value, held⟩ := contains_iff_exists.mp (own.pending allow pending)
  have allow_ok := evalExpr_own call turns own describes held
  have undefined_ok : evalExpr call turns b .undefined image = .ok .undefined image := by
    rw [evalExpr]
    rfl
  have nil_ok : evalExpr call turns b .nil image = .ok .nil image := by
    rw [Expr.nil, evalExpr]
    rfl
  have first_ok := evalExpr_strictEq allow_ok undefined_ok
  refine ⟨value.strictEq .undefined || value.strictEq .nil, ?_⟩
  rw [evalExpr, bind_of_ok first_ok]
  cases value.strictEq .undefined with
  | true => rfl
  | false => exact evalExpr_strictEq allow_ok nil_ok

theorem BlockSound.unknownKeys (caller : CallerSound call)
    (known : frame.kinds "arguments" = some (.arguments count)) (first_pos : 1 ≤ first)
    (paired : count ≤ first ∨ 2 ∣ count - first) (freshIndex : frame.Fresh index)
    (pendingIndex : index ∈ frame.pending) (freshAllow : frame.Fresh allow)
    (keywords_constant : ∀ keyword ∈ keywords, frame.Constant keyword)
    (allowKey_constant : frame.Constant allowKey)
    (rest : BlockSound call turns frame code good) :
    BlockSound call turns frame
      (unknownKeyCheck index allow first keywords allowKey ++ code) good := by
  have constant : ∀ key ∈ keywords ++ [allowKey], frame.Constant key := by
    intro key member
    rcases List.mem_append.mp member with inside | last
    · exact keywords_constant key inside
    · rw [List.mem_singleton.mp last]
      exact allowKey_constant
  refine BlockSound.declare freshAllow ?_
  intro W₀ W image b extends_ describes own
  let inner := frame.pend [allow]
  have pendingIndex' : index ∈ inner.pending := List.mem_cons_of_mem _ pendingIndex
  have pendingAllow : allow ∈ inner.pending := List.mem_cons_self
  have known' : inner.kinds "arguments" = some (.arguments count) := known
  have freshIndex' : inner.Fresh index := freshIndex
  have nothing : ∀ (W' : World) (later : Image), W'.Describes later → W'.Admits inner b →
      Safe W' later (execBlock call turns b []) fun _ flow => flow = .normal :=
    fun _ _ described _ => Safe.gives described rfl
  have searched : Safe W image (exec call turns b (Compiler.scanPairs index first
      [.branch (.binary .strictEq (argumentAt (.ident index)) allowKey)
        ([assignStmt allow (pairedArgument index)] ++ [] ++ [.leave none]) []])) fun _ flow =>
          flow = .normal :=
    Safe.searchLoop known' first_pos paired freshAllow pendingAllow freshIndex' pendingIndex'
      allowKey_constant nothing describes own
  refine Ends.afterEffect extends_ searched fun W₁ image₁ follows described => ?_
  have own₁ := own.follows follows
  have extends₁ := extends_.trans follows.extends_
  obtain ⟨truth, test_ok⟩ := unwaived_ok call turns own₁ described pendingAllow
  have complained : Safe W₁ image₁ (exec call turns b (.branch
      (.binary .or (.binary .strictEq (.ident allow) .undefined)
        (.binary .strictEq (.ident allow) .nil))
      [Compiler.scanPairs index first [.branch (unknownTest index (keywords ++ [allowKey]))
        [.effect (.callRoutine .unknownKeyword [argumentAt (.ident index)])] []]] []))
      fun _ flow => flow = .normal := by
    change Ends W₁ W₁ image₁ _ (exec call turns b _ image₁)
    rw [exec_branch test_ok]
    cases truth with
    | false => exact Safe.gives described rfl
    | true =>
        rw [if_pos rfl, execBlock_singleton]
        exact Safe.complaintLoop caller known' first_pos paired freshIndex' pendingIndex' constant
          described own₁
  refine Ends.afterEffect extends₁ complained fun W₂ image₂ further described => ?_
  exact rest W₀ W₂ image₂ b (extends₁.trans further.extends_) described
    (own₁.follows further).drop

end Pairs

end LispScript.Discipline
