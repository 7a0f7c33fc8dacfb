import LispScript.Proofs.LambdaCalls
import LispScript.Proofs.LocalFunctions

/-!
From one scope of a run to another further in: what is still seen there, and how calls of functions
lead there.
-/

namespace LispScript

open Script Compiler Machine Discipline

variable {i j k : Image} {c d e scope : Nat} {fresh more : String → Prop} {made : LiteralKey → Value}
  {s : CompileState} {acceptor : Value} {data : List Value} {hosts : List String} {call : Caller}
  {turns : Nat}

section Scopes

/-- The run has come from one scope to another further in, or gone on in the same. All names that are
not fresh mean there what they meant. -/
structure Deeper (fresh : String → Prop) (i : Image) (c : Nat) (j : Image) (d : Nat) : Prop where
  ordered : Ordered j.heap
  bound : d < j.heap.scopes.size
  keeps : i.heap.Keeps j.heap
  limit : j.depthLimit = i.depthLimit
  lookup : ∀ name, ¬ fresh name → name ≠ "arguments" →
    j.heap.lookupVariable? d name = i.heap.lookupVariable? c name

theorem Deeper.refl (ordered : Ordered i.heap) (bound : c < i.heap.scopes.size) :
    Deeper fresh i c i c :=
  ⟨ordered, bound, .refl _, rfl, fun _ _ _ => rfl⟩

theorem Deeper.trans (first : Deeper fresh i c j d) (second : Deeper fresh j d k e) :
    Deeper fresh i c k e where
  ordered := second.ordered
  bound := second.bound
  keeps := first.keeps.trans second.keeps
  limit := second.limit.trans first.limit
  lookup name old other := (second.lookup name old other).trans (first.lookup name old other)

theorem Deeper.mono (deeper : Deeper fresh i c j d) (wider : ∀ name, fresh name → more name) :
    Deeper more i c j d :=
  { deeper with lookup := fun name old => deeper.lookup name fun new => old (wider name new) }

theorem Deeper.literals (deeper : Deeper fresh i c j d) (literals : HoldsLiterals s made i c)
    (named : ∀ (key : LiteralKey) name, s.literals.names[key.code]? = some name →
      ∃ n, name = literalName n)
    (old : ∀ n, ¬ fresh (literalName n)) : HoldsLiterals s made j d where
  held key name held := by
    obtain ⟨n, rfl⟩ := named _ _ held
    rw [deeper.lookup _ (old n) fun same => literalName_unreserved n (same ▸ by decide)]
    exact literals.held key _ held
  symbol := literals.symbol
  character := literals.character

theorem Machine.Touches.deeper (touches : Touches c fresh i j) (ordered : Ordered i.heap)
    (bound : c < i.heap.scopes.size) : Deeper fresh i c j c where
  ordered := touches.ordered ordered
  bound := touches.size ▸ bound
  keeps := touches.keeps
  limit := by
    obtain ⟨_, _, _, rfl⟩ := touches.rest
    rfl
  lookup _ old _ := touches.lookup old c

theorem activationImage_keeps (i : Image) (scope : Nat) (params : List String) (args : List Value) :
    i.heap.Keeps (activationImage i scope params args).heap :=
  (i.heap.keeps_allocVector args.toArray).trans
    ⟨Nat.le_refl _, fun _ _ => rfl, Nat.le_refl _, fun _ _ => rfl⟩

/-- Through an activation names that are not those of its parameters are seen. -/
theorem Deeper.activation (ordered : Ordered i.heap) (bound : scope < i.heap.scopes.size)
    (params : List String) (args : List Value) :
    Deeper (· ∈ params) i scope (activationImage i scope params args) i.heap.scopes.size where
  ordered := (activationImage_steady ordered.valid bound _ _).ordered
  bound := by
    rw [activationImage_size]
    exact Nat.lt_succ_self _
  keeps := activationImage_keeps ..
  limit := rfl
  lookup _ old other := lookupVariable?_activationImage ordered bound old other

/-- The acceptor that a function is given is seen in its activation. -/
theorem lookup_acceptor {c₁ c₂ : Counters} {n : Nat} (new : NewHosts c₁ c₂ n hosts) (i : Image)
    (scope : Nat) (acceptor : Value) (data : List Value) :
    (activationImage i scope ("values" :: hosts) (acceptor :: data)).heap.lookupVariable?
      i.heap.scopes.size "values" = some acceptor := by
  refine lookupVariable?_own ?_ ?_
  · rw [activationImage_size]
    exact Nat.lt_succ_self _
  · rw [activationImage_scope]
    exact (activationVariables_of_ne (by decide) _).trans
      (parameterVariables_getElem (params_nodup new) (i := 0) rfl)

/-- Of a name that is seen in both places as the same, nothing is new. -/
theorem Deeper.reseen {seen : String} (deeper : Deeper (fun name => name = seen ∨ fresh name) i c j d)
    (same : j.heap.lookupVariable? d seen = i.heap.lookupVariable? c seen) : Deeper fresh i c j d where
  ordered := deeper.ordered
  bound := deeper.bound
  keeps := deeper.keeps
  limit := deeper.limit
  lookup name old other := by
    by_cases is : name = seen
    · exact is ▸ same
    · exact deeper.lookup name (fun new => new.elim is old) other

theorem Deeper.inside (ordered : Ordered i.heap) (bound : c < i.heap.scopes.size) :
    Deeper fresh i c (i.inside c) i.heap.scopes.size where
  ordered := (activationImage_steady ordered.valid bound [] []).ordered
  bound := Nat.lt_of_lt_of_eq (Nat.lt_succ_self _) (inside_size i c).symm
  keeps := activationImage_keeps i c [] []
  limit := rfl
  lookup _ _ other :=
    (lookupVariable?_activationImage ordered bound List.not_mem_nil other :
      (activationImage i c [] []).heap.lookupVariable? i.heap.scopes.size _ = _)

/-- A count of the calls is no matter to what is seen. -/
theorem Deeper.counting (ordered : Ordered i.heap) (bound : c < i.heap.scopes.size) (depth : Nat) :
    Deeper fresh i c { i with depth } c :=
  ⟨ordered, bound, .refl _, rfl, fun _ _ _ => rfl⟩

end Scopes

section Functions

theorem Discipline.SameFunctions.ordered (same : SameFunctions i j) (scopes : j.heap.scopes = i.heap.scopes)
    (ordered : Ordered i.heap) : Ordered j.heap where
  global := scopes ▸ ordered.global
  parents c p parent := ordered.parents c p (by rwa [Heap.scope, ← scopes])
  closures a params body c callable :=
    scopes ▸ ordered.closures a params body c (same.callable a ▸ callable)
  natives n := (same.callable _).trans (ordered.natives n)

/-- A function is made where the code of a lambda expression is evaluated, whatever properties it gets. -/
theorem evalExpr_functionCode {holder : String} {body : List Stmt} (call : Caller) (turns : Nat)
    (properties : List (String × String)) (hosts : List String) (unreserved : holder ∉ reservedNames)
    (free : "values" ∉ Stmt.assignedAll body) (ordered : Ordered i.heap)
    (bound : c < i.heap.scopes.size) :
    ∃ fn j, evalExpr call turns c (functionCode holder hosts body properties) i =
        .ok (.function fn) j ∧
      (j.heap.function fn).callable = .closure ("values" :: hosts) body c ∧
      Deeper (fun _ => False) i c j c ∧ j.depth = i.depth := by
  let callable : Callable := .closure ("values" :: hosts) body c
  let fn : Nat := i.heap.functions.size
  let i₁ : Image := { i with heap := (i.heap.allocFunction callable).2 }
  have made : evalExpr call turns c (.function ("values" :: hosts) body) i = .ok (.function fn) i₁ := by
    rw [evalExpr]
    rfl
  have callable₁ : (i₁.heap.function fn).callable = callable := by
    simp [i₁, fn, Heap.allocFunction, Heap.function]
  have steady₁ : Steady (fun _ _ => False) i i₁ :=
    .allocFunction ordered.valid _ _ ⟨bound, free, fun _ _ made => made.elim⟩
  have keeps₁ : i.heap.Keeps i₁.heap := ⟨Nat.le_refl _, fun _ _ => rfl, Nat.le_refl _, fun _ _ => rfl⟩
  have deeper₁ : Deeper (fun _ => False) i c i₁ c :=
    ⟨steady₁.ordered, bound, keeps₁, rfl, fun name _ _ =>
      lookupVariable?_congr (show i₁.heap.scopes = i.heap.scopes from rfl) c name⟩
  unfold functionCode
  split
  · exact ⟨fn, i₁, made, callable₁, deeper₁, rfl⟩
  · let i₂ : Image := activationImage i₁ c [holder] [.function fn]
    let i₃ : Image := withProperties fn properties i₂
    obtain ⟨⟨functions, strings, eq⟩, same⟩ := withProperties_same fn properties i₂
    have scopes : i₃.heap.scopes = i₂.heap.scopes := by
      change (withProperties fn properties i₂).heap.scopes = _
      rw [eq]
    have opened : Steady (fun _ _ => False) i₁ i₂ :=
      activationImage_steady deeper₁.ordered.valid deeper₁.bound _ _
    have ne : holder ≠ "arguments" := fun same => unreserved (same ▸ by decide)
    have held : i₂.heap.lookupVariable? i₁.heap.scopes.size holder = some (.function fn) := by
      refine lookupVariable?_own ?_ ?_
      · rw [activationImage_size]
        exact Nat.lt_succ_self _
      · rw [activationImage_scope]
        exact (activationVariables_of_ne ne _).trans
          (parameterVariables_getElem (by simp) (i := 0) rfl)
    have list_ok : evalList call turns c [.function ("values" :: hosts) body] i =
        .ok [.function fn] i₁ := by
      rw [evalList, bind_of_ok made, evalList]
      rfl
    have run : execBlock call turns i₁.heap.scopes.size (propertyStatements holder properties) i₂ =
        .ok (.returned (.function fn)) i₃ := execBlock_propertyStatements held
    refine ⟨fn, i₃, ?_, (same.callable fn).trans callable₁, deeper₁.trans ⟨?_, ?_, ?_, ?_, ?_⟩, ?_⟩
    · rw [propertiesCode, Expr.inPlace, evalExpr, bind_of_ok list_ok,
        bind_of_ok (openActivation_singleton c (.function fn))]
      exact (bind_of_ok run).trans rfl
    · exact same.ordered scopes opened.ordered
    · exact scopes ▸ Nat.lt_of_lt_of_le deeper₁.bound opened.scopes
    · refine (activationImage_keeps i₁ c [holder] [.function fn]).trans ?_
      change Heap.Keeps _ (withProperties fn properties i₂).heap
      rw [eq]
      exact ⟨Nat.le_refl _, fun _ _ => rfl, Nat.le_refl _, fun _ _ => rfl⟩
    · change (withProperties fn properties i₂).depthLimit = _
      rw [eq]
      rfl
    · intro name _ _
      rw [lookupVariable?_congr scopes]
      exact lookupVariable?_beforeActivation deeper₁.ordered deeper₁.bound deeper₁.bound name
    · change (withProperties fn properties i₂).depth = _
      rw [eq]
      rfl

end Functions

section Calls

variable {x : Run β} {pending : List Layer} {fn steps : Nat} {code first second : List Stmt}
  {params : List String} {args : List Value} {error : RuntimeError}

/-- No cleanup is pending around the part at work, so that failures pass. -/
def NoCleanups (pending : List Layer) : Prop := ∀ layer ∈ pending, ∀ task, layer ≠ .cleanup task

theorem NoCleanups.append {inside around : List Layer} (first : NoCleanups inside)
    (second : NoCleanups around) : NoCleanups (inside ++ around) :=
  fun layer member => (List.mem_append.mp member).elim (first layer) (second layer)

theorem NoCleanups.crosses (none_ : NoCleanups pending) (error : RuntimeError) (k : Image) :
    ∃ k', Crosses pending (.failed error) k (.failed error) k' := by
  induction pending generalizing k with
  | nil => exact ⟨k, .nil⟩
  | cons layer rest ih =>
      obtain ⟨first, others⟩ := List.forall_mem_cons.mp none_
      cases layer with
      | exit scope kind target =>
          obtain ⟨k', crosses⟩ := ih others k
          exact ⟨k', .cons .failure crosses⟩
      | cleanup task => exact absurd rfl (first task)
      | activation =>
          obtain ⟨k', crosses⟩ := ih others _
          exact ⟨k', .cons .activation crosses⟩

/-- Where the part at work fails, the whole does. -/
theorem Machine.Active.failed {outer : Run α} (active : Machine.Active x j outer i pending)
    (none_ : NoCleanups pending) (ended : x j = .error (.failed error) k) :
    ∃ k', outer i = .error (.failed error) k' := by
  obtain ⟨k', crosses⟩ := none_.crosses error k
  exact ⟨k', active.crosses ended crosses⟩

theorem Machine.Active.ofFirst
    (active : Machine.Active x j (execBlock call turns c first) i pending) :
    Machine.Active x j (execBlock call turns c (first ++ second)) i pending := by
  rw [execBlock_append]
  exact .first active

theorem Machine.Active.afterFirst (done : execBlock call turns c first i = .ok .normal k)
    (active : Machine.Active x j (execBlock call turns c second) k pending) :
    Machine.Active x j (execBlock call turns c (first ++ second)) i pending := by
  rw [execBlock_append]
  exact .next done active

theorem Machine.Active.ofCallable {callable : Callable}
    (is : (i.heap.function fn).callable = callable)
    (active : Machine.Active x j (match callable with
      | .closure params body scope => Machine.counted do
          let inner ← openActivation scope params args
          resultOf (← execBlock (callWithin steps) steps inner body)
      | .native n => runNative (callWithin steps) n args
      | .primitive p => callPrimitive (callWithin steps) p args) i pending) :
    Machine.Active x j (callWithin (steps + 1) (.function fn) args) i pending := by
  rw [callWithin]
  have got : Run.heap i = .ok i.heap i := rfl
  refine .next got ?_
  rw [is]
  exact active

/-- The body of a function that is called. -/
theorem Machine.Active.ofClosure
    (is : (i.heap.function fn).callable = .closure params code scope)
    (few : args.length < ampleArguments) (below : i.depth < i.depthLimit)
    (active : Machine.Active x j (execBlock (callWithin steps) steps i.heap.scopes.size code)
      (activationImage { i with depth := i.depth + 1 } scope params args) pending) :
    Machine.Active x j (callWithin (steps + 1) (.function fn) args) i (pending ++ [.activation]) :=
  .ofCallable is (.counted below (.next (openActivation_ok few) (.first active)))

/-- `APPLY` calls the function with the elements of a list. -/
theorem Machine.Active.ofApply {codes : List Expr} {list : Value} {items : List Value}
    (ordered : Ordered k.heap)
    (done : evalList (callWithin (steps + 1)) turns c codes i = .ok [acceptor, .function fn, list] k)
    (read : k.heap.listItems? list = some items)
    (active : Machine.Active x j (callWithin steps (.function fn) (acceptor :: items)) k pending) :
    Machine.Active x j (evalExpr (callWithin (steps + 1)) turns c (.callPrimitive .apply codes)) i
      pending := by
  rw [Expr.callPrimitive, evalExpr_call fun _ _ same => by cases same]
  have named : evalExpr (callWithin (steps + 1)) turns c (.support (.native (.primitive .apply))) i =
      .ok (.function (Image.nativeAddress (.primitive .apply))) i := rfl
  have coerced : coerceFunction (.function fn) k = .ok (.function fn) k := rfl
  have spread : listItems list k = .ok items k := by
    have got : Run.heap k = .ok k.heap k := rfl
    rw [listItems, bind_of_ok got, read]
    rfl
  exact .next named (.next done (.ofCallable (ordered.natives _) (.next coerced (.next spread active))))

end Calls

end LispScript
