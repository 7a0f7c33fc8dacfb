import LispScript.Proofs.DynamicBindings
import LispScript.Proofs.LiveImages

/-!
Constants that are left out. Where a sequence of forms is compiled, the code of a form that is
evaluated for effect is dropped if it is a constant, and what is left stands in an expression or in
statements with a scope of their own. Neither makes a difference to evaluating the codes of all forms
in order: a constant can only make an object that nothing refers to, and the scope has nothing in it
that code refers to.
-/

namespace LispScript

open Script Compiler Machine Discipline

section Plain

/-- Of an expression, that it has to do with no `arguments` but those of its own functions. -/
def Discipline.Judgement.IsPlain : Judgement → Prop
  | .expr code _ => code.Plain
  | .returns _ _ => True

theorem Script.Expr.plainAll_iff {codes : List Expr} :
    Expr.PlainAll codes ↔ ∀ code ∈ codes, code.Plain := by
  induction codes with
  | nil => simp [Expr.PlainAll]
  | cons code rest ih => simp [Expr.PlainAll, ih]

variable {frame : Frame} {judgement : Judgement} {acceptor : Expr} {manyValues : Bool}

theorem Discipline.Frame.Accepts.plain (accepts : frame.Accepts acceptor manyValues) :
    acceptor.Plain := by
  rcases accepts with rfl | ⟨rfl, -⟩
  · trivial
  · exact show "values" ≠ "arguments" by decide

theorem Script.Expr.plainAll_accepted {args : List Expr} (accepts : frame.Accepts acceptor manyValues)
    (plain : ∀ arg ∈ args, arg.Plain) : Expr.PlainAll (acceptor :: args) :=
  ⟨accepts.plain, plainAll_iff.mpr plain⟩

/-- The rules let code mention no variable that the frame does not know. -/
theorem Discipline.Derivable.plain (derivable : Derivable frame judgement)
    (hidden : frame.kinds "arguments" = none) : judgement.IsPlain := by
  induction derivable with
  | ident known =>
      rintro rfl
      cases hidden.symm.trans known
  | acceptor accepts => exact accepts.plain
  | widen _ _ ih => exact ih hidden
  | call _ accepts _ _ ihFunction ihArguments =>
      exact ⟨ihFunction hidden, Expr.plainAll_accepted accepts fun arg member =>
        ihArguments arg member hidden⟩
  | callLiteral accepts _ _ _ _ ihArguments =>
      exact ⟨trivial, Expr.plainAll_accepted accepts fun arg member => ihArguments arg member hidden⟩
  | deliver accepts _ ihArguments =>
      exact ⟨accepts.plain, Expr.plainAll_iff.mpr fun arg member => ihArguments arg member hidden⟩
  | inPlace _ _ _ _ _ ihValue => exact ⟨trivial, ihValue hidden, trivial⟩
  | arithmetic _ _ _ ihLeft ihRight => exact ⟨ihLeft hidden, ihRight hidden⟩
  | negate _ ih => exact ih hidden
  | choose _ _ _ _ _ ihLeft ihRight ihYes ihNo =>
      exact ⟨⟨ihLeft hidden, ihRight hidden⟩, ihYes hidden, ihNo hidden⟩
  | primitive _ _ ihArguments =>
      exact ⟨trivial, Expr.plainAll_iff.mpr fun arg member => ihArguments arg member hidden⟩
  | primitiveValues _ accepts _ ihArguments =>
      exact ⟨trivial, Expr.plainAll_accepted accepts fun arg member => ihArguments arg member hidden⟩
  | multipleValueCall _ _ ihFunction ihArguments =>
      exact ⟨trivial, ⟨trivial, ihFunction hidden, trivial⟩, ihArguments hidden, trivial⟩
  | collect accepts => exact ⟨accepts.plain, trivial⟩
  | appendValues _ _ ihArguments ihValues =>
      exact ⟨trivial, ihArguments hidden, ihValues hidden, trivial⟩
  | @assign frame name _ known _ ih =>
      refine ⟨?_, ih hidden⟩
      rintro rfl
      cases hidden.symm.trans known
  | assignSlot _ _ _ ihPlace ihValue => exact ⟨ihPlace hidden, ihValue hidden⟩
  | assignProperty _ _ ihObject ihValue => exact ⟨ihObject hidden, ihValue hidden⟩
  | slotValue _ ih => exact ih hidden
  | argumentsLength known => cases hidden.symm.trans known
  | comma _ _ ihEffects ihLast =>
      refine Expr.plainAll_iff.mpr fun code member => ?_
      rcases List.mem_append.mp member with effect | last
      · exact ihEffects code effect hidden
      · exact List.mem_singleton.mp last ▸ ihLast hidden
  | number | string | nil | t | function | wrap | bundle | internSymbol | uninternedSymbol | character =>
      simp [Judgement.IsPlain, Expr.Plain, Expr.PlainAll, Expr.nil, Expr.t, Expr.wrap, Expr.inPlace,
        Expr.callRoutine, Expr.routine]
  | _ => trivial

end Plain

section OneSide

namespace Machine.Pairing

variable {m : Pairing} {i j k : Image} {c d : Nat} {call : Caller} {turns : Nat} {code : Expr}

theorem Paired.push_left {α : Type} {related : Address → Address → Prop} {same : α → α → Prop}
    {xs ys : Array α} (paired : Paired related same xs ys) (x : α) :
    Paired related same (xs.push x) ys := by
  refine ⟨fun a b held => ?_, paired.unique⟩
  obtain ⟨y, z, left, right, alike⟩ := paired.same a b held
  refine ⟨y, z, ?_, right, alike⟩
  rwa [Array.getElem?_push, if_neg (Nat.ne_of_lt (paired.lt held).1)]

theorem Paired.push_right {α : Type} {related : Address → Address → Prop} {same : α → α → Prop}
    {xs ys : Array α} (paired : Paired related same xs ys) (y : α) :
    Paired related same xs (ys.push y) := by
  refine ⟨fun a b held => ?_, paired.unique⟩
  obtain ⟨x, z, left, right, alike⟩ := paired.same a b held
  refine ⟨x, z, left, ?_, alike⟩
  rwa [Array.getElem?_push, if_neg (Nat.ne_of_lt (paired.lt held).2)]

/-- A scope that is opened for statements stands for the one around it. -/
theorem Alike.inside (alike : m.Alike i j) (bound : c < i.heap.scopes.size) :
    ∃ m', m.Grows m' ∧ m'.Alike (i.inside c) j ∧ m'.inner i.heap.scopes.size c := by
  let m' : Pairing := { m with inner := Adjoin m.inner i.heap.scopes.size c }
  have grows : m.Grows m' := { Grows.refl m with inner := fun _ _ => .inl }
  have heap := alike.heap.mono grows
  have scopeAt (b : Address) : (i.inside c).heap.scope b = if b = i.heap.scopes.size then
      ⟨({} : Variables).insert "arguments" (.vector i.heap.vectors.size), some c, true⟩
      else i.heap.scope b := getD_push _ _ _ b
  have older {b : Address} (lower : b < i.heap.scopes.size) :
      (i.inside c).heap.scope b = i.heap.scope b := by
    rw [scopeAt, if_neg (Nat.ne_of_lt lower)]
  refine ⟨m', grows, ⟨alike.symbols.mono grows, { heap with
    vectors := heap.vectors.push_left _
    scopes := heap.scopes.push_left _
    parentsLeft := fun b p held => ?_
    inner := ?_ }, alike.depth, alike.depthLimit⟩, .inr ⟨rfl, rfl⟩⟩
  · rw [scopeAt] at held
    split at held
    · rename_i last
      cases held
      exact last ▸ bound
    · exact heap.parentsLeft b p held
  · have size : (i.inside c).heap.scopes.size = i.heap.scopes.size + 1 := Array.size_push ..
    rintro b p (within | ⟨rfl, rfl⟩)
    · obtain ⟨lower, parent, only, apart⟩ := alike.heap.inner b p within
      rw [older lower]
      exact ⟨size ▸ Nat.lt_succ_of_lt lower, parent, only, apart⟩
    · rw [scopeAt, if_pos rfl]
      refine ⟨size ▸ Nat.lt_succ_self _, rfl, fun name other => ?_, fun d held => ?_⟩
      · rw [Std.TreeMap.getElem?_insert, if_neg (by simpa using Ne.symm other)]
        simp
      · exact Nat.lt_irrefl _ (alike.heap.scopes.lt held).1

/-- A constant that is evaluated on one side only leaves the images alike. -/
theorem Alike.constant {W : World} {good : World → Value → Prop} (alike : m.Alike i j)
    (constant : code.isConstant = true) (safe : Safe W j (evalExpr call turns d code) good) :
    ∃ value k, evalExpr call turns d code j = .ok value k ∧ m.Alike i k := by
  cases code with
  | number n => exact ⟨_, _, rfl, alike⟩
  | bool b => exact ⟨_, _, rfl, alike⟩
  | undefined => exact ⟨_, _, rfl, alike⟩
  | string text =>
      have strings (a b : Address) (held : m.strings a b) :
          a < i.heap.strings ∧ b < j.heap.strings + 1 :=
        (alike.heap.strings a b held).imp_right Nat.lt_succ_of_lt
      exact ⟨_, _, rfl, { alike with heap := { alike.heap with strings } }⟩
  | function params body =>
      exact ⟨_, _, rfl, { alike with
        heap := { alike.heap with functions := alike.heap.functions.push_right _ } }⟩
  | ident name =>
      cases found : j.heap.lookupVariable? d name with
      | some value => exact ⟨value, j, evalExpr_ident found, alike⟩
      | none =>
          rw [Safe, evalExpr_ident_eq, found] at safe
          cases safe with
          | failed _ _ _ _ isLanguage => exact isLanguage.elim
  | support member =>
      cases given : Image.support? member with
      | some value =>
          refine ⟨value, j, ?_, alike⟩
          simp only [evalExpr, given]
          rfl
      | none =>
          simp only [Safe, evalExpr, given] at safe
          cases safe with
          | failed _ _ _ _ isLanguage => exact isLanguage.elim
  | _ => cases constant

end Machine.Pairing

end OneSide

section Sequences

variable {call : Caller} {turns : Nat} {b c d : Nat} {codes : List Expr} {last : Expr}

/-- An expression of several is evaluated for the last one's value. -/
theorem evalExpr_sequence (codes : List Expr) (last : Expr) :
    evalExpr call turns b (.comma (codes ++ [last])) =
      evalList call turns b codes >>= fun _ => evalExpr call turns b last := by
  have values (seen : List Value) :
      (evalList call turns b (codes ++ [last]) >>= fun values =>
        pure ((seen ++ values).getLast?.getD .undefined)) =
        evalList call turns b codes >>= fun _ => evalExpr call turns b last := by
    induction codes generalizing seen with
    | nil => simp [evalList]
    | cons code rest ih =>
        simp only [List.cons_append, evalList, bind_assoc, pure_bind]
        congr 1
        funext value
        simpa using ih (seen ++ [value])
  simpa only [evalExpr, List.nil_append] using values []

/-- Statements that evaluate expressions and return the value of one more, in a scope of their own. -/
theorem evalExpr_wrapped (codes : List Expr) (last : Expr) (i : Image) :
    evalExpr call turns b (.wrap (codes.map .effect ++ [.ret last])) i =
      (evalList call turns i.heap.scopes.size codes >>= fun _ =>
        evalExpr call turns i.heap.scopes.size last) (i.inside b) := by
  rw [evalExpr_wrap, execBlock_append, execBlock_effects, execBlock_singleton]
  simp only [exec, resultOf, bind_assoc, pure_bind, bind_pure]

/-- The codes whose evaluation can have an effect. -/
def withoutConstants (codes : List Expr) : List Expr := codes.filter (!·.isConstant)

namespace Machine.Pairing

variable {m : Pairing} {i j : Image} {W : World} {frame : Frame} {α β : Type}
  {B : Pairing → α → β → Prop}

/-- Constants can be left out of codes that are evaluated for effect: what follows them ends alike if
it does so from all images that are alike. -/
theorem Agree.without_constants (calls : SameCalls call) (plain : Expr.PlainAll codes)
    (sound : ∀ code ∈ codes, ExprSound call turns frame code .datum) (alike : m.Alike i j)
    (loose : m.Loose c d) (describes : W.Describes j) (admits : W.Admits frame d) {x : Run α} {y : Run β}
    (rest : ∀ m' i j, m.Grows m' → m'.Alike i j → m'.Agree B (x i) (y j)) :
    m.Agree B ((evalList call turns c (withoutConstants codes) >>= fun _ => x) i)
      ((evalList call turns d codes >>= fun _ => y) j) := by
  induction codes generalizing m i j W with
  | nil =>
      simp only [withoutConstants, List.filter_nil, evalList, pure_bind]
      exact rest m i j (.refl m) alike
  | cons code codes ih =>
      obtain ⟨soundCode, soundRest⟩ := List.forall_mem_cons.mp sound
      have safe : Ends W W j (fun W' => W'.Has .datum) (evalExpr call turns d code j) :=
        soundCode W j d describes admits
      simp only [evalList, bind_assoc, pure_bind]
      by_cases constant : code.isConstant = true
      · obtain ⟨value, k, ran, alike'⟩ := alike.constant constant safe
        rw [bind_of_ok ran, withoutConstants, List.filter_cons_of_neg (by simpa using constant)]
        rw [ran] at safe
        cases safe with
        | ok W' _ leads describes' _ _ =>
            exact ih plain.2 soundRest alike' loose describes' (leads.admits admits) rest
      · rw [withoutConstants, List.filter_cons_of_pos (by simpa using constant)]
        simp only [evalList, bind_assoc, pure_bind]
        have agree : m.Agree Same (evalExpr call turns c code i) (evalExpr call turns d code j) :=
          Sim.evalExpr calls code (.inr ⟨loose, plain.1⟩) i j alike
        change m.Agree B (EStateM.bind _ _ i) (EStateM.bind _ _ j)
        rw [EStateM.bind, EStateM.bind]
        generalize evalExpr call turns c code i = r at agree ⊢
        generalize evalExpr call turns d code j = r' at agree safe ⊢
        cases agree with
        | error grows alike' same => exact .error grows alike' same
        | ok grows alike' same =>
            cases safe with
            | ok W' _ leads describes' _ _ =>
                refine (ih plain.2 soundRest alike' (loose.mono grows) describes'
                  (leads.admits admits) fun m' i j more => ?_).since grows
                exact rest m' i j (grows.trans more)

end Machine.Pairing

end Sequences

namespace Compiler

section Forms

variable {compile : FormCompiler} {context : Context} {forms : List Value} {W : World}
  {s t : CompileState} {effects : List Expr} {last : Expr}

/-- The codes of all forms of a sequence, none dropped: those of the forms that are evaluated for effect,
and the last one's. No forms give `NIL`. -/
def compileEach (compile : FormCompiler) (context : Context) (forms : List Value) :
    Compile (List Expr × Expr) := do
  match forms.getLast? with
  | none => return ([], .nil)
  | some last => do
      let effects ← forms.dropLast.mapM (compile context.single)
      return (effects, ← compile context last)

/-- A sequence without its constants, as one expression. -/
def asExpression (effects : List Expr) (last : Expr) : Expr :=
  if (withoutConstants effects).isEmpty then last else .comma (withoutConstants effects ++ [last])

/-- A sequence without its constants, as statements. -/
def asStatements (effects : List Expr) (last : Expr) : List Stmt :=
  (withoutConstants effects).map .effect ++ [.ret last]

theorem compileProgn_each (compile : FormCompiler) (context : Context) (forms : List Value) :
    compileProgn compile context forms = do
      let (effects, last) ← compileEach compile context forms
      return asExpression effects last := by
  unfold compileProgn compileEach
  cases forms.getLast? with
  | none => rfl
  | some last =>
      simp only [compileEffects, bind_assoc, pure_bind]
      rfl

theorem compileBody_each (compile : FormCompiler) (context : Context) (forms : List Value) :
    compileBody compile context forms = do
      let (effects, last) ← compileEach compile context forms
      return asStatements effects last := by
  unfold compileBody compileEach
  cases forms.getLast? with
  | none => rfl
  | some last =>
      simp only [compileEffects, bind_assoc, pure_bind]
      rfl

theorem Built.compileEach (compiles : CompilesForms compile) (ok : CompilerOk W s)
    (env : EnvOk W s context.env) (data : W.Data forms) :
    Built W s (Compiler.compileEach compile context forms) fun _ s' codes =>
      CodesAll context.env s s' codes.1 ∧ Compiles context s s' codes.2 := by
  unfold Compiler.compileEach
  split
  · exact Built.gives ok ⟨fun _ member => absurd member List.not_mem_nil,
      fun _ frame _ _ manyValues _ => Derivable.nil_result frame _⟩
  · rename_i last isLast
    refine Built.bind (Built.compileArgs compiles ok env fun item member =>
      data item (List.mem_of_mem_dropLast member)) fun W₁ s₁ effects first ok₁ all => ?_
    refine Built.bind (compiles W₁ s₁ context last ok₁ (env.further first)
      (first.datum (data last (List.mem_of_getLast? isLast)))) fun W₂ s₂ value second ok₂ held => ?_
    refine Built.gives ok₂ ⟨fun code member => ?_, ?_⟩
    · exact (all.2 code member).widen (Progress.refl s) second.progress
    · exact held.widen first.progress (Progress.refl s₂)

/-- Wherever the code can run that was compiled in a context between two states, it ends as all of the
codes do that are evaluated in order, the last one for its values: with the same outcome and, but for
objects that nothing refers to, with the same symbols, objects and variables. -/
def EvaluatesAll (context : Context) (s t : CompileState) (codes : List Expr) (code : Expr) : Prop :=
  ∀ (m : Pairing) (i j : Image) (c d : Address), m.Alike i j → m.scopes c d →
    RunsIn context s t j d → ∀ steps turns,
      m.Agree Pairing.Same (evalExpr (callWithin steps) turns c code i)
        (evalExpr (callWithin steps) turns d (.comma codes) j)

/-- Code that evaluates a sequence without its constants, in the scope where it stands or in one of its
own. -/
def EvaluatesKept (effects : List Expr) (last code : Expr) : Prop :=
  ∀ (call : Caller) (turns b : Nat) (i : Image), ∃ d j, (d = b ∧ j = i ∨
    d = i.heap.scopes.size ∧ j = i.inside b) ∧ evalExpr call turns b code i =
      (evalList call turns d (withoutConstants effects) >>= fun _ => evalExpr call turns d last) j

theorem asExpression_evaluates (effects : List Expr) (last : Expr) :
    EvaluatesKept effects last (asExpression effects last) := by
  intro call turns b i
  refine ⟨b, i, .inl ⟨rfl, rfl⟩, ?_⟩
  unfold asExpression
  split
  · rename_i none_
    rw [List.isEmpty_iff.mp none_, evalList, pure_bind]
  · rw [evalExpr_sequence]

theorem asStatements_evaluates (effects : List Expr) (last : Expr) :
    EvaluatesKept effects last (statementsExpr (asStatements effects last)) := by
  intro call turns b i
  by_cases none_ : withoutConstants effects = []
  · refine ⟨b, i, .inl ⟨rfl, rfl⟩, ?_⟩
    rw [asStatements, none_, evalList, pure_bind]
    rfl
  · refine ⟨_, _, .inr ⟨rfl, rfl⟩, ?_⟩
    obtain ⟨first, rest, some_⟩ := List.exists_cons_of_ne_nil none_
    have wrapped : statementsExpr (asStatements effects last) = .wrap (asStatements effects last) := by
      rw [asStatements, some_]
      rfl
    rw [wrapped]
    exact evalExpr_wrapped _ _ i

/-- The acceptors of a context, in a frame of a scope of its own. -/
theorem accepts_inside (context : Context) (frame : Frame) :
    ∃ manyValues, (frame.inside.bind "values" (.acceptor true)).Accepts context.acceptor manyValues := by
  unfold Context.acceptor
  split
  · exact ⟨true, .inr ⟨rfl, Frame.bind_self _ _ _⟩⟩
  · exact ⟨false, .inl rfl⟩

theorem EvaluatesKept.all (kept : EvaluatesKept effects last code)
    (codes : CodesAll context.env s t effects) (value : Compiles context s t last) :
    EvaluatesAll context s t (effects ++ [last]) code := by
  rintro m i j c d alike scopes ⟨W, late, frame, progress, serves, describes, admits⟩ steps turns
  have inside := (Frame.ServesBut.inside serves).bindReserved values_reserved (.acceptor true)
  have hidden : (frame.inside.bind "values" (.acceptor true)).kinds "arguments" = none := by
    rw [Frame.bind_of_ne _ (by decide)]
    simp [Frame.inside]
  have plain : Expr.PlainAll effects := Expr.plainAll_iff.mpr fun effect member =>
    (codes.everywhere late _ progress inside effect member).plain hidden
  have plainLast : last.Plain := by
    obtain ⟨manyValues, accepts⟩ := accepts_inside context frame
    exact (value late _ progress inside manyValues accepts).plain hidden
  have sound (effect : Expr) (member : effect ∈ effects) :
      ExprSound (callWithin steps) turns frame effect .datum :=
    (codes.everywhere late frame progress serves effect member).sound (callWithin_sound steps)
  have calls : Pairing.SameCalls (callWithin steps) := Pairing.Sim.callWithin steps
  rw [evalExpr_sequence]
  obtain ⟨c', i', here, ran⟩ := kept (callWithin steps) turns c i
  rw [ran]
  have standing : ∃ m', m.Grows m' ∧ m'.Alike i' j ∧ m'.Loose c' d := by
    rcases here with ⟨rfl, rfl⟩ | ⟨rfl, rfl⟩
    · exact ⟨m, .refl m, alike, .scopes scopes⟩
    · obtain ⟨m', grows, alike', within⟩ := alike.inside (alike.heap.scopes.lt scopes).1
      exact ⟨m', grows, alike', .inner within (.scopes (grows.scopes _ _ scopes))⟩
  obtain ⟨m', grows, alike', loose⟩ := standing
  refine (Pairing.Agree.without_constants calls plain sound alike' loose describes admits
    fun m'' i j more alike => ?_).since grows
  exact Pairing.Sim.evalExpr calls last (.inr ⟨loose.mono more, plainLast⟩) i j alike

/-- Dropping constant forms is invisible. A sequence of forms is compiled to an expression or to
statements, with the same errors and the same state of the compiler after it as when each form is
compiled. The expression, and the statements as one, end as the codes of all forms do that are
evaluated in order, none of them dropped. -/
theorem dropped_constants_invisible (ok : CompilerOk W s) (env : EnvOk W s context.env)
    (data : W.Data forms) (depth : Nat) :
    (∀ e t, compileEach (compileWithin depth) context forms s = .error e t →
      compileProgn (compileWithin depth) context forms s = .error e t ∧
      compileBody (compileWithin depth) context forms s = .error e t) ∧
    ∀ effects last t, compileEach (compileWithin depth) context forms s = .ok (effects, last) t →
      ∃ code stmts, compileProgn (compileWithin depth) context forms s = .ok code t ∧
        compileBody (compileWithin depth) context forms s = .ok stmts t ∧
        EvaluatesAll context s t (effects ++ [last]) code ∧
        EvaluatesAll context s t (effects ++ [last]) (statementsExpr stmts) := by
  rw [compileProgn_each, compileBody_each]
  refine ⟨fun e t failed => ?_, fun effects last t compiled => ?_⟩
  · constructor <;>
    · change EStateM.bind _ _ s = _
      rw [EStateM.bind, failed]
  · have built := Built.compileEach (CompilesForms.within depth) ok env data
    rw [Built, compiled] at built
    cases built with
    | ok W' _ _ held =>
        obtain ⟨codes, value⟩ := held
        refine ⟨asExpression effects last, asStatements effects last, ?_, ?_,
          (asExpression_evaluates effects last).all codes value,
          (asStatements_evaluates effects last).all codes value⟩ <;>
        · change EStateM.bind _ _ s = _
          rw [EStateM.bind, compiled]
          rfl

/-- The cells of `(CAR NIL)`. -/
def carOfNil : List Cell := [⟨.symbol Primitive.car.symbol, .cons 1⟩, ⟨.nil, .nil⟩]

/-- Whether the forms of a sequence are compiled, and without literals. -/
def compilesEach (depth : Nat) (forms : List Value) (s : CompileState) : Bool :=
  match compileEach (compileWithin depth) .toplevel forms s with
  | .ok _ t => t.literals.initializers.isEmpty
  | .error _ _ => false

theorem compilesEach_parts {depth : Nat} (known : compilesEach depth forms s = true) :
    ∃ effects last t, compileEach (compileWithin depth) .toplevel forms s = .ok (effects, last) t ∧
      t.literals.initializers = #[] := by
  unfold compilesEach at known
  split at known
  · rename_i codes t compiled
    exact ⟨codes.1, codes.2, t, compiled, Array.isEmpty_iff.mp known⟩
  · cases known

/-- Of the forms `1`, `(CAR NIL)`, `"A"` and `NIL` the code of the second and the last is left. -/
theorem dropped_constants_invisible_of_car :
    let s := CompileState.reading carOfNil
    let forms : List Value := [.number 1, .cons 0, .string 0 "A", .nil]
    CompilerOk World.initial s ∧ ∃ effects last t code stmts,
      compileEach (compileWithin 2) .toplevel forms s = .ok (effects, last) t ∧
      compileProgn (compileWithin 2) .toplevel forms s = .ok code t ∧
      compileBody (compileWithin 2) .toplevel forms s = .ok stmts t ∧
      ∀ steps turns,
        let ends (code : Expr) := evalExpr (callWithin steps) turns Image.globalScope code s.image
        (Pairing.whole s.image.heap).Agree Pairing.Same (ends code)
          (ends (.comma (effects ++ [last]))) ∧
        (Pairing.whole s.image.heap).Agree Pairing.Same (ends (statementsExpr stmts))
          (ends (.comma (effects ++ [last]))) := by
  intro s forms
  have ok : CompilerOk World.initial s := by
    refine compilerOk_reading fun cell member => ?_
    simp only [carOfNil, List.mem_cons, List.not_mem_nil, or_false] at member
    rcases member with rfl | rfl
    · exact ⟨show Primitive.car.symbol ≠ SymbolId.nil by decide, trivial⟩
    · exact ⟨trivial, trivial⟩
  have data : World.initial.Data forms := by
    intro form member
    simp only [forms, List.mem_cons, List.not_mem_nil, or_false] at member
    rcases member with rfl | rfl | rfl | rfl <;> trivial
  have alike : (Pairing.whole s.image.heap).Alike s.image s.image := by
    refine Pairing.Alike.initial 1000 fun cell member => ?_
    simp only [carOfNil, List.mem_toArray, List.mem_cons, List.not_mem_nil, or_false] at member
    rcases member with rfl | rfl
    · exact ⟨.symbol _, .cons ⟨rfl, by decide⟩⟩
    · exact ⟨.nil, .nil⟩
  have known : compilesEach 2 forms s = true := by decide +kernel
  obtain ⟨effects, last, t, compiled, literals⟩ := compilesEach_parts known
  have runs : RunsIn .toplevel s t s.image Image.globalScope := by
    refine ⟨World.initial, t, Frame.global, Progress.refl _, ?_, ok.describes,
      World.initial.admits_global ok.someScope⟩
    exact { unmade := fun _ _ _ => rfl, bindings := List.forall_mem_nil _,
            literals := fun _ _ member => by rw [literals] at member; cases member }
  obtain ⟨code, stmts, isCode, areStmts, asCode, asStmts⟩ :=
    (dropped_constants_invisible ok (envOk_toplevel _) data 2).2 effects last t compiled
  refine ⟨ok, effects, last, t, code, stmts, compiled, isCode, areStmts, fun steps turns => ⟨?_, ?_⟩⟩
  · exact asCode _ _ _ _ _ alike ⟨rfl, Nat.one_pos⟩ runs steps turns
  · exact asStmts _ _ _ _ _ alike ⟨rfl, Nat.one_pos⟩ runs steps turns

end Forms

end Compiler

end LispScript
