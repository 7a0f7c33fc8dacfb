import LispScript.Proofs.Activation

/-!
Expressions: each rule of the discipline holds of what the machine does.
-/

namespace LispScript.Discipline

open Script Machine Compiler

variable {call : Caller} {turns : Nat} {frame : Frame} {code : List Stmt} {kind wider : Kind}
  {e l r : Expr} {args es : List Expr} {name : String} {manyValues : Bool} {W W' : World}
  {image later : Image} {b : Nat}

section Values

theorem ExprSound.number {n : Float} : ExprSound call turns frame (.number n) .datum := by
  intro W image b describes admits
  simp only [evalExpr]
  exact Safe.gives describes trivial

theorem ExprSound.string {text : String} : ExprSound call turns frame (.string text) .datum := by
  intro W image b describes admits
  simp only [evalExpr]
  exact Safe.newString describes text

theorem ExprSound.nil : ExprSound call turns frame .nil .symbol := by
  intro W image b describes admits
  simp only [Expr.nil, evalExpr, Image.support?]
  exact Safe.gives describes ⟨trivial, rfl⟩

theorem ExprSound.t : ExprSound call turns frame .t .symbol := by
  intro W image b describes admits
  simp only [Expr.t, evalExpr, Image.support?]
  exact Safe.gives describes ⟨W.datum_ofBool true, rfl⟩

theorem ExprSound.ident (known : frame.kinds name = some kind) :
    ExprSound call turns frame (.ident name) kind := by
  intro W image b describes admits
  obtain ⟨value, found, has, -⟩ := describes.lookup admits known
  simp only [evalExpr]
  refine Safe.ofHeap ?_
  simp only [found]
  exact Safe.gives describes has

theorem Safe.nativeValue (n : Native) (describes : W.Describes image) :
    Safe W image (evalExpr call turns b (.support (.native n))) fun _ value =>
      value = .function (Image.nativeAddress n) := by
  simp only [evalExpr, Image.support?]
  exact Safe.gives describes rfl

theorem ExprSound.acceptor (accepts : frame.Accepts e manyValues) :
    ExprSound call turns frame e (.acceptor manyValues) := by
  rcases accepts with rfl | ⟨rfl, known⟩
  · intro W image b describes admits
    exact Safe.nativeValue _ describes
  · exact ExprSound.ident known

theorem ExprSound.widen (within : kind.Within wider) (sound : ExprSound call turns frame e kind) :
    ExprSound call turns frame e wider :=
  fun W image b describes admits => (sound W image b describes admits).widen within

end Values

section Calls

/-- Arguments give values of the language, from left to right. -/
theorem Safe.arguments (sound : ∀ arg ∈ args, ExprSound call turns frame arg .datum)
    (describes : W.Describes image) (admits : W.Admits frame b) :
    Safe W image (evalList call turns b args) fun W' => W'.Data := by
  induction args generalizing W image with
  | nil =>
      simp only [evalList]
      exact Safe.gives describes World.data_nil
  | cons arg rest ih =>
      obtain ⟨soundArg, soundRest⟩ := List.forall_mem_cons.mp sound
      simp only [evalList]
      refine (soundArg W image b describes admits).bind fun W₁ image₁ value follows described
        datum => ?_
      refine (ih soundRest described (follows.leads.admits admits)).bind fun W₂ image₂ values
        further described data => ?_
      exact Safe.gives described (World.data_cons.mpr ⟨further.datum datum, data⟩)

theorem evalExpr_call (named : IsNamed e) (args : List Expr) :
    evalExpr call turns b (.call e args) = (do
      let function ← evalExpr call turns b e
      call function (← evalList call turns b args)) := by
  cases e with
  | function params body => exact absurd rfl (named params body)
  | _ => simp only [evalExpr]

theorem Frame.Accepts.isNamed (accepts : frame.Accepts e manyValues) : IsNamed e := by
  rcases accepts with rfl | ⟨rfl, -⟩ <;> intro params body <;> nofun

/-- An acceptor and arguments after it. -/
theorem Safe.acceptedArguments (accepts : frame.Accepts e manyValues)
    (sound : ∀ arg ∈ args, ExprSound call turns frame arg .datum)
    (describes : W.Describes image) (admits : W.Admits frame b) :
    Safe W image (evalList call turns b (e :: args)) fun W' values =>
      ∃ data, values = acceptorValue manyValues :: data ∧ W'.Data data := by
  simp only [evalList]
  refine (ExprSound.acceptor accepts W image b describes admits).bind fun W₁ image₁ value follows
    described held => ?_
  refine (Safe.arguments sound described (follows.leads.admits admits)).bind fun W₂ image₂ values _
    described data => ?_
  have value_eq : value = acceptorValue manyValues := held
  exact Safe.gives described ⟨values, by rw [value_eq], data⟩

theorem ExprSound.callValue (caller : CallerSound call) (named : IsNamed e) {acceptor : Expr}
    (accepts : frame.Accepts acceptor manyValues) (function : ExprSound call turns frame e .datum)
    (arguments : ∀ arg ∈ args, ExprSound call turns frame arg .datum) :
    ExprSound call turns frame (.call e (acceptor :: args)) (.result manyValues) := by
  intro W image b describes admits
  rw [evalExpr_call named]
  refine (function W image b describes admits).bind fun W₁ image₁ value follows described
    datum => ?_
  refine (Safe.acceptedArguments accepts arguments described (follows.leads.admits admits)).bind
    fun W₂ image₂ values further described held => ?_
  obtain ⟨data, rfl, isData⟩ := held
  exact caller.language W₂ image₂ manyValues value data described (further.datum datum) isData

theorem ExprSound.callLiteral {acceptor : Expr} {hosts : List String}
    (accepts : frame.Accepts acceptor manyValues) (params : frame.CanEnter hosts)
    (body : ∀ manyValues count, 1 ≤ count → count < Number.exactLimit →
      StmtSound call turns (frame.enter manyValues count hosts) code (.result manyValues))
    (arguments : ∀ arg ∈ args, ExprSound call turns frame arg .datum) :
    ExprSound call turns frame (.call (.function ("values" :: hosts) code) (acceptor :: args))
      (.result manyValues) := by
  intro W image b describes admits
  simp only [evalExpr]
  refine (Safe.acceptedArguments accepts arguments describes admits).bind fun W₁ image₁ values
    follows described held => ?_
  obtain ⟨data, rfl, isData⟩ := held
  exact Safe.enter described (follows.leads.admits admits) params isData (body manyValues)

theorem ExprSound.function {hosts : List String} (isBody : frame.IsBody hosts code) :
    ExprSound call turns frame (.function ("values" :: hosts) code) .function := by
  intro W image b describes admits
  simp only [evalExpr]
  have ok : W.addFunction.CallableOk (.closure ("values" :: hosts) code b) :=
    ⟨frame, hosts, rfl, isBody, W.extends_addFunction.grows.admits admits⟩
  exact Safe.done (Follows.stay W.extends_addFunction rfl rfl)
    (describes.allocFunction (fun _ owed => owed) fun _ => ok) rfl
    ⟨describes.addFunction_self, rfl⟩

theorem ExprSound.deliver (caller : CallerSound call)
    (accepts : frame.Accepts e manyValues)
    (arguments : ∀ arg ∈ args, ExprSound call turns frame arg .datum) :
    ExprSound call turns frame (.call e args) (.result manyValues) := by
  intro W image b describes admits
  rw [evalExpr_call accepts.isNamed]
  refine (ExprSound.acceptor accepts W image b describes admits).bind fun W₁ image₁ value follows
    described held => ?_
  obtain rfl : value = acceptorValue manyValues := held
  refine (Safe.arguments arguments described (follows.leads.admits admits)).bind
    fun W₂ image₂ values _ described data => ?_
  exact caller.deliver W₂ image₂ manyValues values described data

/-- A call of a native routine. -/
theorem Safe.callNative (caller : CallerSound call) (n : Native) {good : World → List Value → Prop}
    {result : World → Value → Prop} (describes : W.Describes image)
    (arguments : ∀ W' later, Follows W image W' later → W'.Describes later →
      Safe W' later (evalList call turns b args) good)
    (run : ∀ W' later values inner, W'.Describes later → good W' values → CallSound inner →
      Safe W' later (runNative inner n values) result) :
    Safe W image (evalExpr call turns b (.call (.support (.native n)) args)) result := by
  rw [evalExpr_call (by intro params body; nofun)]
  refine (Safe.nativeValue n describes).bind fun W₁ image₁ value follows described
    held => ?_
  subst held
  refine (arguments W₁ image₁ follows described).bind fun W₂ image₂ values _ described held => ?_
  change Ends W₂ W₂ image₂ _ (call _ values image₂)
  rcases caller.native W₂ image₂ n values described with ended | ⟨inner, sound, same⟩
  · rw [ended]
    exact Safe.exhausted described
  · rw [same]
    exact run W₂ image₂ values inner described held sound

theorem ExprSound.primitive (caller : CallerSound call) {p : Primitive}
    (plain : p.takesAcceptor = false)
    (arguments : ∀ arg ∈ args, ExprSound call turns frame arg .datum) :
    ExprSound call turns frame (.callPrimitive p args) .datum := by
  intro W image b describes admits
  refine Safe.callNative caller (.primitive p) describes
    (fun W' later follows described =>
      Safe.arguments arguments described (follows.leads.admits admits))
    fun W' later values inner described data _ => ?_
  exact Safe.runPrimitivePlain plain described data

theorem ExprSound.primitiveValues (caller : CallerSound call) {p : Primitive} {acceptor : Expr}
    (takes : p.takesAcceptor = true) (accepts : frame.Accepts acceptor manyValues)
    (arguments : ∀ arg ∈ args, ExprSound call turns frame arg .datum) :
    ExprSound call turns frame (.callPrimitive p (acceptor :: args)) (.result manyValues) := by
  intro W image b describes admits
  refine Safe.callNative caller (.primitive p) describes
    (fun W' later follows described =>
      Safe.acceptedArguments accepts arguments described (follows.leads.admits admits))
    fun W' later values inner described held sound => ?_
  obtain ⟨data, rfl, isData⟩ := held
  exact Safe.runPrimitiveValues sound takes described isData

theorem ExprSound.coerceFunction (caller : CallerSound call)
    (function : ExprSound call turns frame e .datum) :
    ExprSound call turns frame (.callRoutine .coerceFunction [e]) .datum := by
  intro W image b describes admits
  refine Safe.callNative caller (.routine .coerceFunction) describes
    (fun W' later follows described =>
      Safe.arguments (by simpa using function) described (follows.leads.admits admits))
    fun W' later values inner described data _ => ?_
  exact Safe.coerceArgument described data 0

/-- The value of one argument, as a list. -/
theorem Safe.oneArgument (sound : ExprSound call turns frame e kind) (describes : W.Describes image)
    (admits : W.Admits frame b) :
    Safe W image (evalList call turns b [e]) fun W' values =>
      ∃ value, values = [value] ∧ W'.Has kind value := by
  simp only [evalList]
  refine (sound W image b describes admits).bind fun W₁ image₁ value _ described has => ?_
  exact Safe.gives described ⟨value, rfl, has⟩

/-- The values of two arguments, as a list. -/
theorem Safe.twoArguments (first : ExprSound call turns frame l kind)
    (second : ExprSound call turns frame r wider) (describes : W.Describes image)
    (admits : W.Admits frame b) :
    Safe W image (evalList call turns b [l, r]) fun W' values =>
      ∃ x y, values = [x, y] ∧ W'.Has kind x ∧ W'.Has wider y := by
  rw [evalList]
  refine (first W image b describes admits).bind fun W₁ image₁ x follows described has => ?_
  refine (Safe.oneArgument second described (follows.leads.admits admits)).bind
    fun W₂ image₂ values further described held => ?_
  obtain ⟨y, rfl, hasSecond⟩ := held
  exact Safe.gives described ⟨x, y, rfl, further.leads.grows.has has, hasSecond⟩

theorem ExprSound.multipleValueCall (caller : CallerSound call)
    (function : ExprSound call turns frame e .datum)
    (arguments : ExprSound call turns frame l (.collector manyValues)) :
    ExprSound call turns frame
      (.callRoutine .applyVector [.callRoutine .coerceFunction [e], l]) (.result manyValues) := by
  intro W image b describes admits
  refine Safe.callNative caller (.routine .applyVector) describes
    (fun W' later follows described => Safe.twoArguments (.coerceFunction caller function) arguments
      described (follows.leads.admits admits))
    fun W' later values inner described held sound => ?_
  obtain ⟨function, collector, rfl, datum, held⟩ := held
  exact Safe.applyVector sound described datum held

theorem ExprSound.collect (accepts : frame.Accepts e manyValues) :
    ExprSound call turns frame (.array [e]) (.collector manyValues) := by
  intro W image b describes admits
  simp only [evalExpr]
  refine (Safe.oneArgument (.acceptor accepts) describes admits).bind fun W₁ image₁ values _
    described held => ?_
  obtain ⟨value, rfl, held⟩ := held
  obtain rfl : value = acceptorValue manyValues := held
  exact Safe.collect described

theorem ExprSound.appendValues (caller : CallerSound call)
    (arguments : ExprSound call turns frame l (.collector manyValues))
    (values : ExprSound call turns frame r .many) :
    ExprSound call turns frame (.callRoutine .appendValues [l, r]) (.collector manyValues) := by
  intro W image b describes admits
  refine Safe.callNative caller (.routine .appendValues) describes
    (fun W' later follows described => Safe.twoArguments arguments values described
      (follows.leads.admits admits))
    fun W' later values inner described held sound => ?_
  obtain ⟨collector, more, rfl, held, many⟩ := held
  exact Safe.appendCollected described held many

/-- The text of a literal string is known. -/
theorem Safe.literal (text : String) (describes : W.Describes image) :
    Safe W image (evalExpr call turns b (.string text)) fun _ value =>
      ∃ address, value = .string address text := by
  simp only [evalExpr]
  exact Safe.done (Follows.stay (World.Extends.refl W) rfl rfl) { describes with } rfl ⟨_, rfl⟩

theorem ExprSound.internSymbol (caller : CallerSound call) {text packageName : String}
    (package : packageName ∈ packageNames ∨ packageName = "") :
    ExprSound call turns frame (.callRoutine .internSymbol [.string text, .string packageName])
      .symbol := by
  intro W image b describes admits
  have arguments : ∀ W' later, W'.Describes later → Safe W' later
      (evalList call turns b [.string text, .string packageName]) fun _ values =>
        ∃ a c, values = [.string a text, .string c packageName] := by
    intro W' later described
    rw [evalList]
    refine (Safe.literal text described).bind fun W₁ image₁ first _ described held => ?_
    obtain ⟨a, rfl⟩ := held
    simp only [evalList, bind_assoc, pure_bind]
    refine (Safe.literal packageName described).bind fun W₂ image₂ second _ described held => ?_
    obtain ⟨c, rfl⟩ := held
    exact Safe.gives described ⟨a, c, rfl⟩
  refine Safe.callNative caller (.routine .internSymbol) describes
    (fun W' later _ described => arguments W' later described)
    fun W' later values inner described held _ => ?_
  obtain ⟨a, c, rfl⟩ := held
  change Gives W' later (Machine.internSymbol [.string a text, .string c packageName]) _
  exact Safe.internSymbol described package

theorem ExprSound.uninternedSymbol (caller : CallerSound call) {text : String} {n : Float} :
    ExprSound call turns frame (.callRoutine .uninternedSymbol [.string text, .number n])
      .symbol := by
  intro W image b describes admits
  have arguments : ∀ W' later, W'.Describes later → Safe W' later
      (evalList call turns b [.string text, .number n]) fun _ values =>
        ∃ a, values = [.string a text, .number n] := by
    intro W' later described
    rw [evalList]
    refine (Safe.literal text described).bind fun W₁ image₁ first _ described held => ?_
    obtain ⟨a, rfl⟩ := held
    simp only [evalList, evalExpr, pure_bind]
    exact Safe.gives described ⟨a, rfl⟩
  refine Safe.callNative caller (.routine .uninternedSymbol) describes
    (fun W' later _ described => arguments W' later described)
    fun W' later values inner described held _ => ?_
  obtain ⟨a, rfl⟩ := held
  change Gives W' later (Machine.uninternedSymbol [.string a text, .number n]) _
  exact Safe.uninternedSymbol described

theorem ExprSound.character (caller : CallerSound call) {n : Float} :
    ExprSound call turns frame (.callRoutine .character [.number n]) .datum := by
  intro W image b describes admits
  refine Safe.callNative caller (.routine .character) describes
    (fun W' later follows described => Safe.arguments (by simpa using ExprSound.number) described
      (follows.leads.admits admits))
    fun W' later values inner described data _ => ?_
  exact Safe.characterOf described _

end Calls

section Operators

theorem Safe.applyArithmetic {op : BinaryOp} (mem : op ∈ arithmeticOps) (left right : Value)
    (describes : W.Describes image) :
    Gives W image (applyBinary op left right) .datum := by
  have numeric : ∀ a c, ∃ n, onNumbers? op a c = some (.number n) := by
    simp only [arithmeticOps, List.mem_cons, List.not_mem_nil, or_false] at mem
    rcases mem with rfl | rfl | rfl <;> intro a c <;> exact ⟨_, rfl⟩
  unfold applyBinary
  split
  · contradiction
  · contradiction
  · contradiction
  · contradiction
  · split
    · rename_i a c
      obtain ⟨n, eq⟩ := numeric a c
      rw [eq]
      exact Safe.gives describes trivial
    · simp only [onStrings]
      split
      · exact Safe.newString describes _
      · contradiction
      · contradiction
      · contradiction
      · contradiction
      · exact Safe.typeError describes _ _
    · exact Safe.typeError describes _ _
    · exact Safe.typeError describes _ _

/-- A comparison gives a truth value, or its operands were not of its types. -/
theorem Safe.applyComparison {op : BinaryOp} (mem : op ∈ comparisonOps) (left right : Value)
    (describes : W.Describes image) :
    Safe W image (applyBinary op left right) fun _ _ => True := by
  unfold applyBinary
  split
  · exact Safe.gives describes trivial
  · exact Safe.gives describes trivial
  · exact Safe.gives describes trivial
  · exact Safe.gives describes trivial
  · split
    · have numeric : ∀ a c, ∃ truth, onNumbers? op a c = some (.bool truth) := by
        simp only [comparisonOps, List.mem_cons, List.not_mem_nil, or_false] at mem
        rcases mem with rfl | rfl | rfl | rfl | rfl | rfl <;> intro a c <;>
          first | exact ⟨_, rfl⟩ | contradiction
      rename_i a c
      obtain ⟨truth, eq⟩ := numeric a c
      rw [eq]
      exact Safe.gives describes trivial
    · simp only [onStrings]
      split
      · contradiction
      · exact Safe.gives describes trivial
      · exact Safe.gives describes trivial
      · exact Safe.gives describes trivial
      · exact Safe.gives describes trivial
      · exact Safe.typeError describes _ _
    · exact Safe.typeError describes _ _
    · exact Safe.typeError describes _ _

theorem evalExpr_binary {op : BinaryOp} (strict : op ≠ .and ∧ op ≠ .or) :
    evalExpr call turns b (.binary op l r) = (do
      let left ← evalExpr call turns b l
      applyBinary op left (← evalExpr call turns b r)) := by
  cases op with
  | and => exact absurd rfl strict.1
  | or => exact absurd rfl strict.2
  | _ => simp only [evalExpr]

theorem ExprSound.arithmetic {op : BinaryOp} (mem : op ∈ arithmeticOps)
    (left : ExprSound call turns frame l .datum) (right : ExprSound call turns frame r .datum) :
    ExprSound call turns frame (.binary op l r) .datum := by
  intro W image b describes admits
  have strict : op ≠ .and ∧ op ≠ .or := by constructor <;> rintro rfl <;> contradiction
  rw [evalExpr_binary strict]
  refine (left W image b describes admits).bind fun W₁ image₁ x follows described _ => ?_
  refine (right W₁ image₁ b described (follows.leads.admits admits)).bind
    fun W₂ image₂ y _ described _ => ?_
  exact Safe.applyArithmetic mem x y described

theorem ExprSound.negate (operand : ExprSound call turns frame e .datum) :
    ExprSound call turns frame (.unary .neg e) .datum := by
  intro W image b describes admits
  simp only [evalExpr]
  refine (operand W image b describes admits).bind fun W₁ image₁ value _ described _ => ?_
  simp only [applyUnary]
  split
  · exact Safe.gives described trivial
  · exact Safe.typeError described _ _

theorem ExprSound.choose {op : BinaryOp} {yes no : Expr} (mem : op ∈ comparisonOps)
    (left : ExprSound call turns frame l .datum) (right : ExprSound call turns frame r .datum)
    (soundYes : ExprSound call turns frame yes kind)
    (soundNo : ExprSound call turns frame no kind) :
    ExprSound call turns frame (.cond (.binary op l r) yes no) kind := by
  intro W image b describes admits
  have strict : op ≠ .and ∧ op ≠ .or := by constructor <;> rintro rfl <;> contradiction
  rw [evalExpr, evalExpr_binary strict]
  simp only [bind_assoc]
  refine (left W image b describes admits).bind fun W₁ image₁ x follows described _ => ?_
  have admits₁ := follows.leads.admits admits
  refine (right W₁ image₁ b described admits₁).bind fun W₂ image₂ y follows described _ => ?_
  have admits₂ := follows.leads.admits admits₁
  refine (Safe.applyComparison mem x y described).bind fun W₃ image₃ test follows described _ => ?_
  have admits₃ := follows.leads.admits admits₂
  split
  · exact soundYes W₃ image₃ b described admits₃
  · exact soundNo W₃ image₃ b described admits₃

/-- The value of the last of several expressions. -/
theorem ExprSound.comma (effects : ∀ e ∈ es, ExprSound call turns frame e .datum)
    (last : ExprSound call turns frame e kind) :
    ExprSound call turns frame (.comma (es ++ [e])) kind := by
  intro W image b describes admits
  have values : Safe W image (evalList call turns b (es ++ [e])) fun W' values =>
      ∃ value, values.getLast? = some value ∧ W'.Has kind value := by
    induction es generalizing W image with
    | nil =>
        refine (Safe.oneArgument last describes admits).mono fun W' values held => ?_
        obtain ⟨value, rfl, has⟩ := held
        exact ⟨value, rfl, has⟩
    | cons first rest ih =>
        obtain ⟨soundFirst, soundRest⟩ := List.forall_mem_cons.mp effects
        rw [List.cons_append, evalList]
        refine (soundFirst W image b describes admits).bind fun W₁ image₁ value follows described
          _ => ?_
        refine (ih soundRest W₁ image₁ described (follows.leads.admits admits)).bind
          fun W₂ image₂ values _ described held => ?_
        obtain ⟨result, getLast_eq, has⟩ := held
        refine Safe.gives described ⟨result, ?_, has⟩
        rw [List.getLast?_cons, getLast_eq]
        rfl
  simp only [evalExpr]
  refine values.bind fun W₁ image₁ values _ described held => ?_
  obtain ⟨value, getLast_eq, has⟩ := held
  rw [getLast_eq]
  exact Safe.gives described has

end Operators

section Places

theorem acceptorValue_not_datum : ¬ W.Datum (acceptorValue manyValues) := by
  intro datum
  exact Nat.not_lt.mpr datum.1 (nativeAddress_lt _)

/-- A variable that holds data is not the one for the acceptor. -/
theorem World.DescribesBut.datum_ne_values {owed : Address → Prop} {layout : Layout} {value : Value}
    (describes : W.DescribesBut owed image) (found : W.scopes[b]? = some layout)
    (held : (image.heap.scope b).vars[name]? = some value) (datum : W.Datum value) :
    name ≠ "values" := by
  rintro rfl
  obtain ⟨manyValues, rfl⟩ := (describes.scopes b layout found).acceptor value held
  exact acceptorValue_not_datum datum

theorem Safe.assignVariable {value : Value} (describes : W.Describes image)
    (admits : W.Admits frame b) (known : frame.kinds name = some .datum) (datum : W.Datum value) :
    Safe W image (assignTo call turns b value (.ident name)) fun _ _ => True := by
  obtain ⟨old, -, oldDatum, owner, layout, owner_eq, found, listed, held⟩ :=
    describes.lookup admits known
  simp only [assignTo]
  refine Safe.ofHeap ?_
  simp only [owner_eq]
  have ne := describes.datum_ne_values found held oldDatum
  have described : W.Describes { image with heap := image.heap.bindVariable owner name value } := by
    refine describes.assign found (fun kind other => ?_) (fun same => absurd same ne)
      (fun kind other => ?_) fun other => ?_
    · rw [listed, Option.some.injEq] at other
      exact other ▸ datum
    · rw [listed, Option.some.injEq] at other
      exact other ▸ id
    · exact absurd (listed.symm.trans other) (Option.some_ne_none _)
  have leads : Leads W image W { image with heap := image.heap.bindVariable owner name value } := by
    refine Leads.bindVariable (World.Grows.refl W) (describes.scope_bound found)
      fun other kind foundOther listedOther => ?_
    rw [found, Option.some.injEq] at foundOther
    rw [← foundOther, listed, Option.some.injEq] at listedOther
    exact listedOther ▸ id
  exact Safe.done ⟨World.Extends.refl W, leads⟩ described rfl trivial

theorem ExprSound.assign (known : frame.kinds name = some .datum)
    (value : ExprSound call turns frame e .datum) :
    ExprSound call turns frame (.assign (.ident name) e) .datum := by
  intro W image b describes admits
  simp only [evalExpr]
  refine (value W image b describes admits).bind fun W₁ image₁ held follows described datum => ?_
  refine (Safe.assignVariable described (follows.leads.admits admits) known datum).bind
    fun W₂ image₂ _ further described _ => ?_
  exact Safe.gives described (further.datum datum)

theorem Safe.setSlot {place value : Value} (describes : W.Describes image)
    (symbol : W.Has .symbol place) (optional : W.Has .optional value) :
    Safe W image (setProperty place "value" value) fun _ _ => True := by
  have slot : ∀ held ∈ slotOf value, W.Datum held := by
    intro held inside
    rcases optional with datum | rfl
    · cases value <;> first | contradiction | exact Option.some.inj inside ▸ datum
    · contradiction
  have ok := fun id => describes.symbols.setValue id slot
  cases place with
  | nil =>
      change Safe W image (Run.modifySymbols (·.setValue .nil (slotOf value))) _
      exact Safe.modifySymbols describes (ok .nil)
  | symbol id =>
      change Safe W image (Run.modifySymbols (·.setValue id (slotOf value))) _
      exact Safe.modifySymbols describes (ok id)
  | _ => exact absurd symbol.2 (by simp [Value.asSymbol?])

theorem ExprSound.assignSlot (within : kind.Within .optional)
    (place : ExprSound call turns frame l .symbol) (value : ExprSound call turns frame e kind) :
    ExprSound call turns frame (.assign (.member l "value") e) kind := by
  intro W image b describes admits
  simp only [evalExpr, assignTo, bind_assoc]
  refine (value W image b describes admits).bind fun W₁ image₁ held follows described has => ?_
  refine (place W₁ image₁ b described (follows.leads.admits admits)).bind
    fun W₂ image₂ object further described symbol => ?_
  have hasLater := further.leads.grows.has has
  refine (Safe.setSlot described symbol (within W₂ held hasLater)).bind
    fun W₃ image₃ _ last described _ => ?_
  exact Safe.gives described (last.leads.grows.has hasLater)

theorem ExprSound.assignProperty {property : String}
    (object : ExprSound call turns frame l .function)
    (value : ExprSound call turns frame e .datum) :
    ExprSound call turns frame (.assign (.member l property) e) .datum := by
  intro W image b describes admits
  simp only [evalExpr, assignTo, bind_assoc]
  refine (value W image b describes admits).bind fun W₁ image₁ held follows described datum => ?_
  refine (object W₁ image₁ b described (follows.leads.admits admits)).bind
    fun W₂ image₂ function further described isFunction => ?_
  have datumLater := further.datum datum
  have set : Safe W₂ image₂ (setProperty function property held) fun _ _ => True := by
    cases function with
    | function address =>
        have inside : address < image₂.heap.functions.size :=
          described.functionCount ▸ isFunction.1.2
        change Safe W₂ image₂ (Run.modifyHeap (·.setProperty address property held)) _
        exact Safe.modifyHeap described (described.setProperty inside datumLater) rfl rfl
    | _ => exact absurd isFunction.2 (by simp [Value.isFunction])
  exact set.bind fun W₃ image₃ _ last described _ =>
    Safe.gives described (last.datum datumLater)

theorem ExprSound.slotValue (place : ExprSound call turns frame l .symbol) :
    ExprSound call turns frame (.member l "value") .optional := by
  intro W image b describes admits
  have read : ∀ W' later id, W'.Describes later →
      Gives W' later (symbolProperty id "value") .optional := by
    intro W' later id described
    refine Safe.ofSymbols (Safe.gives described ?_)
    cases slot : (later.symbols.symbol id).value with
    | none => exact .inr rfl
    | some held => exact .inl ((described.symbol_ok id).value held slot)
  simp only [evalExpr]
  refine (place W image b describes admits).bind fun W₁ image₁ object _ described symbol => ?_
  cases object with
  | nil => exact read W₁ image₁ .nil described
  | symbol id => exact read W₁ image₁ id described
  | _ => exact absurd symbol.2 (by simp [Value.asSymbol?])

theorem ExprSound.argumentsLength {count : Nat}
    (known : frame.kinds "arguments" = some (.arguments count)) :
    ExprSound call turns frame argumentsLength .datum := by
  intro W image b describes admits
  rw [Compiler.argumentsLength, evalExpr]
  refine (ExprSound.ident known W image b describes admits).bind fun W₁ image₁ vector _ described
    held => ?_
  obtain ⟨address, rfl, -⟩ := held
  exact Safe.ofHeap (Safe.gives described trivial)

end Places

end LispScript.Discipline
