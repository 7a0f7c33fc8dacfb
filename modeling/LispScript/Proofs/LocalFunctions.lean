import LispScript.Proofs.Cleanup

/-!
Functions that see one another: while they are made, none of them is called, and when all of them are
there each finds the others.
-/

namespace LispScript.Discipline

open Script Machine Compiler

variable {call : Caller} {turns : Nat} {frame : Frame} {code : List Stmt} {kind : Kind}
  {name holder : String} {W₀ W W' : World} {image later : Image} {b n : Nat}
  {owed : Address → Prop} {properties : List (String × String)}

section Properties

/-- What setting properties of functions leaves alone. -/
structure SameFunctions (image later : Image) : Prop where
  size : later.heap.functions.size = image.heap.functions.size
  callable : ∀ a, (later.heap.function a).callable = (image.heap.function a).callable

theorem SameFunctions.trans {last : Image} (first : SameFunctions image later)
    (second : SameFunctions later last) :
    SameFunctions image last :=
  ⟨second.size.trans first.size, fun a => (second.callable a).trans (first.callable a)⟩

/-- The statements that give a new function its properties and return it. -/
def propertyStatements (holder : String) (properties : List (String × String)) : List Stmt :=
  properties.map (fun (property, text) =>
    Stmt.effect (.assign (.member (.ident holder) property) (.string text))) ++
      [.ret (.ident holder)]

/-- The image in which a function has got its properties. -/
def withProperties (address : Address) : List (String × String) → Image → Image
  | [], image => image
  | (property, text) :: rest, image =>
      let made := Image.moreStrings image 1
      withProperties address rest { made with
        heap := made.heap.setProperty address property (.string image.heap.strings text) }

/-- Nothing else has changed, and the functions can be called as before. -/
theorem withProperties_same (address : Address) (properties : List (String × String)) (image : Image) :
    (∃ functions strings, withProperties address properties image =
      { image with heap := { image.heap with functions, strings } }) ∧
      SameFunctions image (withProperties address properties image) := by
  induction properties generalizing image with
  | nil => exact ⟨⟨_, _, rfl⟩, rfl, fun _ => rfl⟩
  | cons first rest ih =>
      obtain ⟨property, text⟩ := first
      let made := Image.moreStrings image 1
      let set : Image := { made with
        heap := made.heap.setProperty address property (.string image.heap.strings text) }
      obtain ⟨⟨functions, strings, eq⟩, same⟩ := ih set
      have size_eq : set.heap.functions.size = image.heap.functions.size := by
        simp [set, made, Heap.setProperty, Image.moreStrings]
      exact ⟨⟨functions, strings, eq⟩, SameFunctions.trans
        ⟨size_eq, fun a => setProperty_callable made.heap address a property _⟩ same⟩

theorem withProperties_describes {address : Address} (inside : address < image.heap.functions.size)
    (describes : W.DescribesBut owed image) :
    W.DescribesBut owed (withProperties address properties image) := by
  induction properties generalizing image with
  | nil => exact describes
  | cons first rest ih =>
      refine ih ?_ ((describes.moreStrings 1).setProperty inside trivial)
      simpa [Heap.setProperty, Image.moreStrings] using inside

/-- Setting the properties of a function calls nothing. -/
theorem execBlock_propertyStatements {inner : Nat} {address : Address}
    (held : image.heap.lookupVariable? inner holder = some (.function address)) :
    execBlock call turns inner (propertyStatements holder properties) image =
      .ok (.returned (.function address)) (withProperties address properties image) := by
  induction properties generalizing image with
  | nil =>
      rw [propertyStatements, List.map_nil, List.nil_append, execBlock_singleton, exec,
        bind_of_ok (evalExpr_ident held)]
      rfl
  | cons first rest ih =>
      obtain ⟨property, text⟩ := first
      let made := Image.moreStrings image 1
      let set : Image := { made with
        heap := made.heap.setProperty address property (.string image.heap.strings text) }
      have scopesMade : made.heap.scopes = image.heap.scopes := rfl
      have scopesSet : set.heap.scopes = image.heap.scopes := rfl
      have heldMade : made.heap.lookupVariable? inner holder = some (.function address) :=
        (lookupVariable?_congr scopesMade inner holder).trans held
      have heldSet : set.heap.lookupVariable? inner holder = some (.function address) :=
        (lookupVariable?_congr scopesSet inner holder).trans held
      have assigned : evalExpr call turns inner
          (.assign (.member (.ident holder) property) (.string text)) image =
            .ok (.string image.heap.strings text) set := by
        have text_ok : evalExpr call turns inner (.string text) image =
            .ok (.string image.heap.strings text) made := by
          simp only [evalExpr]
          rfl
        rw [evalExpr, bind_of_ok text_ok]
        have assign_ok : assignTo call turns inner (.string image.heap.strings text)
            (.member (.ident holder) property) made = .ok () set := by
          rw [assignTo, bind_of_ok (evalExpr_ident heldMade)]
          rfl
        rw [bind_of_ok assign_ok]
        rfl
      have effect : exec call turns inner
          (.effect (.assign (.member (.ident holder) property) (.string text))) image =
            .ok .normal set := by
        rw [exec, bind_of_ok assigned]
        rfl
      rw [propertyStatements, List.map_cons, List.cons_append, execBlock, bind_of_ok effect]
      exact ih heldSet

end Properties

section Definitions

/-- The functions made since there were `n`: each is one of the local functions, and none was called
yet. -/
def MadeFrom (locals : List LocalFunction) (b n : Nat) (image : Image) : Prop :=
  ∀ a, n ≤ a → a < image.heap.functions.size → ∃ f ∈ locals,
    (image.heap.function a).callable = .closure ("values" :: f.hosts) f.body b

theorem MadeFrom.same {locals : List LocalFunction} (made : MadeFrom locals b n image)
    (same : SameFunctions image later) :
    MadeFrom locals b n later := by
  intro a low inside
  rw [same.callable]
  exact made a low (same.size ▸ inside)

theorem MadeFrom.allocFunction {locals : List LocalFunction} (made : MadeFrom locals b n image)
    {f : LocalFunction} (member : f ∈ locals) :
    MadeFrom locals b n { image with heap := (image.heap.allocFunction
      (.closure ("values" :: f.hosts) f.body b)).2 } := by
  intro a low inside
  simp only [Heap.allocFunction, Heap.function, getD_push, Array.size_push] at inside ⊢
  by_cases new : a = image.heap.functions.size
  · rw [if_pos new]
    exact ⟨f, member, rfl⟩
  · rw [if_neg new]
    exact made a low (Nat.lt_of_le_of_ne (Nat.le_of_lt_succ inside) new)

theorem openActivation_singleton (b : Nat) (value : Value) :
    openActivation b [name] [value] image = .ok image.heap.scopes.size { image with
      heap := ((image.heap.allocVector #[value]).2.allocScope
        ⟨activationVariables [name] [value] (.vector image.heap.vectors.size), some b, true⟩).2 } := by
  have few : ¬ ampleArguments ≤ [value].length := by
    simp only [List.length_singleton]
    decide
  unfold openActivation
  rw [if_neg few]
  rfl

/-- A function is made and gets its properties. -/
theorem evalExpr_propertiesCode {f : LocalFunction} {locals : List LocalFunction}
    (member : f ∈ locals) (describes : W.DescribesBut (n ≤ ·) image)
    (made : MadeFrom locals b n image) (counted : n ≤ image.heap.functions.size)
    (holder_free : f.holder ∉ reservedNames) :
    ∃ W' later, evalExpr call turns b (propertiesCode f.holder
        (.function ("values" :: f.hosts) f.body) f.properties) image =
          .ok (.function image.heap.functions.size) later ∧
      Follows W image W' later ∧ W'.DescribesBut (n ≤ ·) later ∧ W'.transfers = W.transfers ∧
      W'.Datum (.function image.heap.functions.size) ∧ MadeFrom locals b n later ∧
      n ≤ later.heap.functions.size := by
  have holder_arguments : f.holder ≠ "arguments" := by
    intro same
    rw [same] at holder_free
    exact holder_free (by decide)
  have holder_values : f.holder ≠ "values" := by
    intro same
    rw [same] at holder_free
    exact holder_free (by decide)
  -- The function itself.
  let callable : Callable := .closure ("values" :: f.hosts) f.body b
  let function : Value := .function image.heap.functions.size
  let image₁ : Image := { image with heap := (image.heap.allocFunction callable).2 }
  have describes₁ : W.addFunction.DescribesBut (n ≤ ·) image₁ :=
    describes.allocFunction (fun _ owed => owed) fun ready => absurd counted ready
  have follows₁ : Follows W image W.addFunction image₁ :=
    Follows.stay W.extends_addFunction rfl rfl
  have datum : W.addFunction.Datum function := describes.addFunction_self
  have made₁ : MadeFrom locals b n image₁ := made.allocFunction member
  have function_ok : evalExpr call turns b (.function ("values" :: f.hosts) f.body) image =
      .ok function image₁ := by
    rw [evalExpr]
    rfl
  -- The scope in which it gets its properties.
  let vector : Value := .vector image₁.heap.vectors.size
  let scope : Scope := ⟨activationVariables [f.holder] [function] vector, some b, true⟩
  let W₂ := W.addFunction.addVector .other
  let image₂ : Image := { image₁ with heap := (image₁.heap.allocVector #[function]).2 }
  have fits : W.addFunction.Fits #[function] .other := trivial
  have describes₂ : W₂.DescribesBut (n ≤ ·) image₂ := describes₁.allocVector fits
  have follows₂ : Follows W.addFunction image₁ W₂ image₂ :=
    Follows.stay (W.addFunction.extends_addVector .other) rfl rfl
  let nothing : Layout := fun _ => none
  let W₃ : World := { W₂ with scopes := W₂.scopes ++ [nothing] }
  let image₃ : Image := { image₂ with heap := (image₂.heap.allocScope scope).2 }
  have scopeOk : W₂.ScopeOk W₂.scopes W₂.scopes.length nothing scope := by
    refine ⟨nofun, fun value found => ?_, nofun, fun name value found _ free => ?_⟩
    · change (activationVariables [f.holder] [function] vector)["values"]? = some value at found
      rw [activationVariables_of_notMem (by decide) (by simpa using Ne.symm holder_values)] at found
      contradiction
    · have ne : name ≠ "arguments" := by
        rintro rfl
        exact free (by decide)
      change (activationVariables [f.holder] [function] vector)[name]? = some value at found
      rw [activationVariables_of_ne ne] at found
      by_cases same : name = f.holder
      · rw [same, parameterVariables_getElem (by simp) (i := 0) rfl] at found
        obtain rfl := Option.some.inj found
        exact .inl ((W.addFunction.extends_addVector .other).grows.datum datum)
      · rw [parameterVariables_of_notMem (by simpa using same)] at found
        simp at found
  have describes₃ : W₃.DescribesBut (n ≤ ·) image₃ := describes₂.allocScope scopeOk
  have follows₃ : Follows W₂ image₂ W₃ image₃ := Follows.allocScope describes₂ nothing scope
  have opened : openActivation b [f.holder] [function] image₁ =
      .ok image.heap.scopes.size image₃ := openActivation_singleton b function
  have held : image₃.heap.lookupVariable? image.heap.scopes.size f.holder = some function := by
    refine lookupVariable?_own ?_ ?_
    · change image.heap.scopes.size < (image.heap.scopes.push scope).size
      rw [Array.size_push]
      exact Nat.lt_succ_self _
    · have scope_eq : image₃.heap.scope image.heap.scopes.size = scope := by
        change (image.heap.scopes.push scope).getD image.heap.scopes.size default = scope
        rw [getD_push, if_pos rfl]
      rw [scope_eq]
      exact (activationVariables_of_ne holder_arguments vector).trans
        (parameterVariables_getElem (by simp) (i := 0) rfl)
  have inside : image.heap.functions.size < image₃.heap.functions.size := by
    change _ < (image.heap.functions.push _).size
    rw [Array.size_push]
    exact Nat.lt_succ_self _
  let image₄ := withProperties image.heap.functions.size f.properties image₃
  have run : execBlock call turns image.heap.scopes.size
      (propertyStatements f.holder f.properties) image₃ = .ok (.returned function) image₄ :=
    execBlock_propertyStatements held
  have describes₄ : W₃.DescribesBut (n ≤ ·) image₄ := withProperties_describes inside describes₃
  obtain ⟨⟨functions, strings, eq⟩, same⟩ :=
    withProperties_same image.heap.functions.size f.properties image₃
  have scopes : image₄.heap.scopes = image₃.heap.scopes := by
    change (withProperties _ _ image₃).heap.scopes = _
    rw [eq]
  have transfers : image₄.heap.transfers = image₃.heap.transfers := by
    change (withProperties _ _ image₃).heap.transfers = _
    rw [eq]
  have follows₄ : Follows W₃ image₃ W₃ image₄ :=
    Follows.stay (World.Extends.refl W₃) scopes transfers
  have list_ok : evalList call turns b [.function ("values" :: f.hosts) f.body] image =
      .ok [function] image₁ := by
    rw [evalList, bind_of_ok function_ok, evalList]
    rfl
  have made₃ : MadeFrom locals b n image₃ := made₁
  refine ⟨W₃, image₄, ?_, ((follows₁.trans follows₂).trans follows₃).trans follows₄, describes₄, rfl,
    datum, made₃.same same, ?_⟩
  · rw [propertiesCode, Expr.inPlace, evalExpr, bind_of_ok list_ok, bind_of_ok opened]
    exact (bind_of_ok run).trans rfl
  · rw [same.size]
    exact Nat.le_trans counted (Nat.le_of_lt inside)

/-- One function is there for the others. -/
theorem exec_localFunction {f : LocalFunction} {locals : List LocalFunction} (member : f ∈ locals)
    (extends_ : W₀.Extends W) (describes : W.DescribesBut (n ≤ ·) image)
    (own : Own W₀ W image frame b) (made : MadeFrom locals b n image)
    (counted : n ≤ image.heap.functions.size) (fresh : frame.Fresh f.host)
    (holder_free : f.holder ∉ reservedNames) :
    ∃ W' later, exec call turns b f.code image = .ok .normal later ∧ W₀.Extends W' ∧
      Leads W image W' later ∧ W'.DescribesBut (n ≤ ·) later ∧
      Own W₀ W' later (frame.bind f.host .datum) b ∧ W'.transfers = W.transfers ∧
      MadeFrom locals b n later ∧ n ≤ later.heap.functions.size := by
  let function : Value := .function image.heap.functions.size
  obtain ⟨W₁, image₁, value_ok, follows, described, transfers, datum, madeLater, countedLater⟩ :
      ∃ W' later, evalExpr call turns b (propertiesCode f.holder
          (.function ("values" :: f.hosts) f.body) f.properties) image = .ok function later ∧
        Follows W image W' later ∧ W'.DescribesBut (n ≤ ·) later ∧ W'.transfers = W.transfers ∧
        W'.Datum function ∧ MadeFrom locals b n later ∧ n ≤ later.heap.functions.size :=
    evalExpr_propertiesCode member describes made counted holder_free
  have ownLater := own.follows follows
  obtain ⟨extended, leads, describedLater, ownLast⟩ := ownLater.bind described
    (extends_.trans follows.extends_) fresh.1 (show W₁.Has .datum function from datum)
    (fun same => absurd same fresh.ne_values) nofun nofun
  let heap := image₁.heap.bindVariable b f.host function
  refine ⟨_, { image₁ with heap := heap }, ?_, extended, follows.leads.trans leads, describedLater,
    ownLast.drop, transfers, madeLater, countedLater⟩
  rw [LocalFunction.code, exec, bind_of_ok value_ok]
  let place := image₁.heap.functionScope b
  let heapThere := image₁.heap.bindVariable place f.host function
  change EStateM.Result.ok Flow.normal { image₁ with heap := heapThere } = _
  have place_eq : place = b := ownLater.functionScope described
  rw [show heapThere = heap from congrArg (image₁.heap.bindVariable · f.host function) place_eq]

theorem Frame.bindAll_cons (frame : Frame) (name : String) (names : List String) (kind : Kind) :
    (frame.bind name kind).bindAll names kind = frame.bindAll (name :: names) kind := by
  simp only [Frame.bindAll, Frame.bind, Frame.mk.injEq, and_true]
  funext other
  by_cases inside : other ∈ names
  · rw [if_pos inside, if_pos (List.mem_cons_of_mem _ inside)]
  · by_cases same : other = name
    · simp [same]
    · simp [inside, same, Layout.bind]

theorem Frame.Fresh.bind {other : String} (fresh : frame.Fresh name) (different : name ≠ other)
    (kind : Kind) :
    (frame.bind other kind).Fresh name :=
  ⟨(Layout.bind_of_ne frame.kinds kind different).trans fresh.1, fresh.2⟩

/-- The functions are made one after the other, and no code of them runs. -/
theorem execBlock_localFunctions {locals some_ : List LocalFunction} (members : some_ ⊆ locals)
    (extends_ : W₀.Extends W) (describes : W.DescribesBut (n ≤ ·) image)
    (own : Own W₀ W image frame b) (made : MadeFrom locals b n image)
    (counted : n ≤ image.heap.functions.size) (distinct : (some_.map (·.host)).Nodup)
    (fresh : ∀ f ∈ some_, frame.Fresh f.host) (holders : ∀ f ∈ some_, f.holder ∉ reservedNames) :
    ∃ W' later, execBlock call turns b (some_.map (·.code) ++ code) image =
        execBlock call turns b code later ∧ W₀.Extends W' ∧
      Leads W image W' later ∧ W'.DescribesBut (n ≤ ·) later ∧
      Own W₀ W' later (frame.bindAll (some_.map (·.host)) .datum) b ∧
      W'.transfers = W.transfers ∧ MadeFrom locals b n later := by
  induction some_ generalizing W image frame with
  | nil =>
      refine ⟨W, image, rfl, extends_, Leads.refl W image, describes, ?_, rfl, made⟩
      simpa [Frame.bindAll] using own
  | cons f rest ih =>
      obtain ⟨absent, distinctRest⟩ := List.nodup_cons.mp distinct
      obtain ⟨W₁, image₁, first, extended, leads, described, ownLater, transfers, madeLater,
          countedLater⟩ :
          ∃ W' later, exec call turns b f.code image = .ok .normal later ∧ W₀.Extends W' ∧
            Leads W image W' later ∧ W'.DescribesBut (n ≤ ·) later ∧
            Own W₀ W' later (frame.bind f.host .datum) b ∧ W'.transfers = W.transfers ∧
            MadeFrom locals b n later ∧ n ≤ later.heap.functions.size :=
        exec_localFunction (members List.mem_cons_self) extends_ describes own made counted
          (fresh f List.mem_cons_self) (holders f List.mem_cons_self)
      have freshRest : ∀ g ∈ rest, (frame.bind f.host .datum).Fresh g.host := by
        intro g member
        refine (fresh g (List.mem_cons_of_mem _ member)).bind (fun same => absent ?_) .datum
        exact List.mem_map.mpr ⟨g, member, same⟩
      obtain ⟨W₂, image₂, run, extendedLast, leadsLast, describedLast, ownLast, transfersLast,
          madeLast⟩ := ih (fun g member => members (List.mem_cons_of_mem _ member)) extended
        described ownLater madeLater countedLater distinctRest freshRest
        fun g member => holders g (List.mem_cons_of_mem _ member)
      refine ⟨W₂, image₂, ?_, extendedLast, leads.trans leadsLast, describedLast, ?_,
        transfersLast.trans transfers, madeLast⟩
      · rw [List.map_cons, List.cons_append, execBlock, bind_of_ok first]
        exact run
      · rw [List.map_cons, ← Frame.bindAll_cons]
        exact ownLast

/-- When all of the functions are there, each can be called. -/
theorem BlockSound.defineFunctions {locals : List LocalFunction}
    (distinct : (locals.map (·.host)).Nodup) (fresh : ∀ f ∈ locals, frame.Fresh f.host)
    (holders : ∀ f ∈ locals, f.holder ∉ reservedNames)
    (bodies : ∀ f ∈ locals, (frame.bindAll (locals.map (·.host)) .datum).IsBody f.hosts f.body)
    (rest : BlockSound call turns (frame.bindAll (locals.map (·.host)) .datum) code good) :
    BlockSound call turns frame (locals.map (·.code) ++ code) good := by
  intro W₀ W image b extends_ describes own
  let n := image.heap.functions.size
  have owing : W.DescribesBut (n ≤ ·) image :=
    { describes with functions := ⟨describes.functions.natives, describes.functions.properties,
      fun a low inside _ => describes.functions.callables a low inside id⟩ }
  have made : MadeFrom locals b n image := fun a low inside => absurd inside (Nat.not_lt.mpr low)
  obtain ⟨W₁, image₁, run, extended, leads, described, ownLater, transfers, madeLater⟩ :
      ∃ W' later, execBlock call turns b (locals.map (·.code) ++ code) image =
          execBlock call turns b code later ∧ W₀.Extends W' ∧
        Leads W image W' later ∧ W'.DescribesBut (n ≤ ·) later ∧
        Own W₀ W' later (frame.bindAll (locals.map (·.host)) .datum) b ∧
        W'.transfers = W.transfers ∧ MadeFrom locals b n later :=
    execBlock_localFunctions (fun _ member => member) extends_ owing own made (Nat.le_refl n)
      distinct fresh holders
  have ready : W₁.Describes image₁ := by
    refine described.settleFunctions fun a owed _ inside => ?_
    obtain ⟨f, member, callable_eq⟩ := madeLater a owed inside
    rw [callable_eq]
    exact ⟨_, f.hosts, rfl, bodies f member, ownLater.admits⟩
  rw [run]
  exact Ends.step leads transfers (rest W₀ W₁ image₁ b extended ready ownLater)

end Definitions

end LispScript.Discipline
