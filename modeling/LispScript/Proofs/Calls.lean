import LispScript.Proofs.Builtin

/-!
Calls: a caller that keeps to the discipline is handed an acceptor with its arguments, and so hand
on the built-in functions and the routines that call in turn.
-/

namespace LispScript.Discipline

open Script Machine

variable {W W' : World} {image later : Image} {args items values : List Value} {value : Value}
  {manyValues : Bool} {call : Caller}

/-- A caller of functions that keeps to the discipline: what a function of the language gives is what
its acceptor is for. -/
structure CallSound (call : Caller) : Prop where
  language : ∀ W image manyValues function args, W.Describes image → W.Datum function →
    W.Data args →
    Gives W image (call function (acceptorValue manyValues :: args)) (.result manyValues)
  deliver : ∀ W image manyValues values, W.Describes image → W.Data values →
    Gives W image (call (acceptorValue manyValues) values) (.result manyValues)

/-- A caller that runs code: its native routines call in turn through a caller that keeps to the
discipline. -/
structure CallerSound (call : Caller) : Prop extends CallSound call where
  native : ∀ (W : World) image n args, W.Describes image →
    call (.function (Image.nativeAddress n)) args image = .error .outOfSteps image ∨
      ∃ inner, CallSound inner ∧
        call (.function (Image.nativeAddress n)) args image = runNative inner n args image

theorem argument_datum (data : W.Data args) (i : Nat) :
    W.Datum (argument args i) ∨ argument args i = .undefined := by
  rw [argument]
  cases found : args[i]? with
  | none => exact .inr rfl
  | some item => exact .inl (data item (List.mem_of_getElem? found))

theorem Safe.coerceArgument (describes : W.Describes image) (data : W.Data args) (i : Nat) :
    Gives W image (Machine.coerceFunction (argument args i)) .datum := by
  rcases argument_datum data i with datum | missing
  · exact Safe.coerceFunction describes datum
  · rw [missing]
    exact Safe.described (Safe.fail describes trivial)

section Calls

variable (sound : CallSound call)
include sound

theorem Safe.funcall (describes : W.Describes image) (data : W.Data args) :
    Gives W image (runPrimitive call .funcall (acceptorValue manyValues :: args))
      (.result manyValues) := by
  have callee : argument (acceptorValue manyValues :: args) 1 = argument args 0 := rfl
  simp only [runPrimitive, callee]
  refine (Safe.coerceArgument describes data 0).bind fun W' later function follows described
    held => ?_
  exact sound.language W' later manyValues function (args.drop 1) described held
    ((data.drop 1).follows follows)

theorem Safe.apply (describes : W.Describes image) (data : W.Data args) :
    Gives W image (runPrimitive call .apply (acceptorValue manyValues :: args))
      (.result manyValues) := by
  have callee : argument (acceptorValue manyValues :: args) 1 = argument args 0 := rfl
  simp only [runPrimitive, callee]
  refine (Safe.coerceArgument describes data 0).bind fun W₁ image₁ function follows described
    held => ?_
  have rest := (data.drop 1).follows follows
  have args_eq : (acceptorValue manyValues :: args).drop 2 = args.drop 1 := rfl
  simp only [args_eq]
  cases last : (args.drop 1).getLast? with
  | some list =>
    refine (Safe.listItems described (rest.getLast last)).bind fun W₂ image₂ spread further
      described more => ?_
    exact sound.language W₂ image₂ manyValues function _ described (further.datum held)
      ((rest.dropLast.follows further).append more)
  | none =>
    exact sound.language W₁ image₁ manyValues function _ described held
      (rest.dropLast.append World.data_nil)

theorem Safe.callValues (describes : W.Describes image) (data : W.Data args) :
    Gives W image (runPrimitive call .values (acceptorValue manyValues :: args))
      (.result manyValues) :=
  sound.deliver W image manyValues args describes data

theorem Safe.callValuesList (describes : W.Describes image) (data : W.Data args) :
    Gives W image (runPrimitive call .valuesList (acceptorValue manyValues :: args))
      (.result manyValues) :=
  (Safe.listItems describes (data.actual 0)).bind fun W' later items _ described more =>
    sound.deliver W' later manyValues items described more

/-- A built-in function that takes an acceptor gives what the acceptor is for. -/
theorem Safe.runPrimitiveValues {p : Primitive} (takes : p.takesAcceptor = true)
    (describes : W.Describes image) (data : W.Data args) :
    Gives W image (runPrimitive call p (acceptorValue manyValues :: args))
      (.result manyValues) := by
  cases p with
  | funcall => exact Safe.funcall sound describes data
  | apply => exact Safe.apply sound describes data
  | values => exact Safe.callValues sound describes data
  | valuesList => exact Safe.callValuesList sound describes data
  | _ => contradiction

omit sound in
theorem Safe.runPrimitivePlain {p : Primitive} (plain : p.takesAcceptor = false)
    (describes : W.Describes image) (data : W.Data args) :
    Gives W image (runPrimitive call p args) .datum := by
  have same : runPrimitive call p args = Machine.runBuiltin p args := by
    cases p <;> first | rfl | contradiction
  rw [same]
  exact Safe.runBuiltin p plain describes data

/-- The function that a symbol of a primitive holds. -/
theorem Safe.callPrimitive (p : Primitive) (describes : W.Describes image) (data : W.Data args) :
    Gives W image (callPrimitive call p (acceptorValue manyValues :: args))
      (.result manyValues) := by
  simp only [Machine.callPrimitive]
  by_cases accepted : p.arity.accepts ((acceptorValue manyValues :: args).length - 1) = true
  · rw [if_pos accepted]
    cases takes : p.takesAcceptor with
    | true => exact Safe.runPrimitiveValues sound takes describes data
    | false =>
        exact (Safe.runPrimitivePlain takes describes data).widen
          (Kind.datum_within_result manyValues)
  · rw [if_neg accepted]
    exact Safe.fail describes trivial

theorem Safe.deliverValues (describes : W.Describes image) (many : W.Has .many value) :
    Gives W image (runNative call (.routine .deliverValues) [acceptorValue manyValues, value])
      (.result manyValues) :=
  sound.deliver W image manyValues (image.valuesOf value) describes
    (describes.valuesOf_datum many)

/-- A call whose arguments, the acceptor before them, were collected in a vector. -/
theorem Safe.applyVector {function : Value} (describes : W.Describes image)
    (datum : W.Datum function) (collector : W.Has (.collector manyValues) value) :
    Gives W image (runNative call (.routine .applyVector) [function, value])
      (.result manyValues) := by
  obtain ⟨address, rfl, found⟩ := collector
  obtain ⟨rest, items_eq, data⟩ := describes.vector_fits found
  change Gives W image (call function (image.heap.vector address).toList) _
  rw [items_eq]
  exact sound.language W image manyValues function rest describes datum data

end Calls

theorem Safe.appendCollected (describes : W.Describes image)
    (collector : W.Has (.collector manyValues) value) {more : Value}
    (many : W.Has .many more) :
    Gives W image (Machine.appendValues [value, more]) (.collector manyValues) := by
  obtain ⟨address, rfl, found⟩ := collector
  obtain ⟨rest, items_eq, (data : W.Data rest)⟩ := describes.vector_fits found
  have fits : W.Fits (image.heap.vector address ++ image.valuesOf more)
      (.collector manyValues) := by
    refine ⟨rest ++ image.valuesOf more, ?_, data.append (describes.valuesOf_datum many)⟩
    simp [items_eq]
  exact Safe.newVectorAs describes fits

theorem Safe.collect (describes : W.Describes image) :
    Gives W image (Machine.newVector [acceptorValue manyValues]) (.collector manyValues) := by
  have fits : W.Fits #[acceptorValue manyValues] (.collector manyValues) :=
    ⟨[], rfl, World.data_nil⟩
  exact Safe.newVectorAs describes fits

end LispScript.Discipline
