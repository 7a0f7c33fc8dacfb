import LispScript.Proofs.Expressions

/-!
Variables that stay as they are. A variable of a scope keeps its value as long as no code that runs
in that scope declares it, and no code that can see the scope assigns to it. Code that can see a
scope stems from code that ran there, so for a new scope this is a matter of the code that opens it.
-/

namespace LispScript.Machine

open Script Discipline

/-- Scope `b` is the scope `c` or one around it. -/
inductive Sees (heap : Heap) : Nat → Nat → Prop where
  | self : Sees heap c c
  | outer (parent : (heap.scope c).parent = some p) (sees : Sees heap p b) : Sees heap c b

/-- Scopes were made after those around them, closures after the scopes they were made in, no closure
assigns to the variable that holds an acceptor, and the routines are where scripts find them. -/
structure Ordered (heap : Heap) : Prop where
  global : 0 < heap.scopes.size
  parents : ∀ c p : Nat, (heap.scope c).parent = some p → p < c
  closures : ∀ a params body c, (heap.function a).callable = .closure params body c →
    c < heap.scopes.size ∧ "values" ∉ Stmt.assignedAll body
  natives : ∀ n : Native, (heap.function (Image.nativeAddress n)).callable = .native n

/-- No closure that sees one of the watched variables assigns to it. -/
structure Guards (watched : Nat → String → Prop) (heap : Heap) : Prop where
  bound : ∀ b name, watched b name → b < heap.scopes.size
  closures : ∀ b name, watched b name → ∀ a params body c,
    (heap.function a).callable = .closure params body c → Sees heap c b →
      name ∉ Stmt.assignedAll body

/-- A later image, in which the watched variables have kept their values and are guarded still. -/
structure Steady (watched : Nat → String → Prop) (i j : Image) : Prop where
  ordered : Ordered j.heap
  guards : Guards watched j.heap
  scopes : i.heap.scopes.size ≤ j.heap.scopes.size
  parents : ∀ c, c < i.heap.scopes.size → (j.heap.scope c).parent = (i.heap.scope c).parent
  isFunction : ∀ c, c < i.heap.scopes.size →
    (j.heap.scope c).isFunction = (i.heap.scope c).isFunction
  kept : ∀ b name, watched b name →
    (j.heap.scope b).vars[name]? = (i.heap.scope b).vars[name]?
  vectors : i.heap.vectors.size ≤ j.heap.vectors.size
  bundles : Extends i.heap.bundles j.heap.bundles
  transfers : Extends i.heap.transfers j.heap.transfers

/-- Names that code standing at a scope may assign to. -/
structure Clear (watched : Nat → String → Prop) (heap : Heap) (c : Nat) (names : List String) :
    Prop where
  bound : c < heap.scopes.size
  values : "values" ∉ names
  guarded : ∀ b name, watched b name → Sees heap c b → name ∉ names

/-- Names that code standing at a scope may declare. -/
def Undeclared (watched : Nat → String → Prop) (heap : Heap) (c : Nat) (names : List String) :
    Prop :=
  ∀ b name, watched b name → heap.functionScope c = b → name ∉ names

variable {watched : Nat → String → Prop} {i j k : Image} {c b : Nat} {names : List String}

section Chains

theorem Sees.le {heap : Heap} (ordered : Ordered heap) (sees : Sees heap c b) : b ≤ c := by
  induction sees with
  | self => exact Nat.le_refl _
  | outer parent _ ih => exact Nat.le_trans ih (Nat.le_of_lt (ordered.parents _ _ parent))

/-- What can be seen from a scope depends on the scopes around it, which are there for good. -/
theorem Sees.before {first second : Heap} (ordered : Ordered first)
    (parents : ∀ c, c < first.scopes.size → (second.scope c).parent = (first.scope c).parent)
    (bound : c < first.scopes.size) (sees : Sees second c b) :
    Sees first c b := by
  induction sees with
  | self => exact .self
  | outer parent _ ih =>
      rw [parents _ bound] at parent
      exact .outer parent (ih (Nat.lt_trans (ordered.parents _ _ parent) bound))

theorem Sees.later {first second : Heap} (ordered : Ordered first)
    (parents : ∀ c, c < first.scopes.size → (second.scope c).parent = (first.scope c).parent)
    (bound : c < first.scopes.size) (sees : Sees first c b) :
    Sees second c b := by
  induction sees with
  | self => exact .self
  | outer parent _ ih =>
      have lower := ordered.parents _ _ parent
      exact .outer ((parents _ bound).trans parent) (ih (Nat.lt_trans lower bound))

theorem findScopeWithin_sees {heap : Heap} {p : Scope → Bool} {limit : Nat} {found : Address}
    (search : heap.findScopeWithin p limit c = some found) :
    Sees heap c found := by
  induction limit generalizing c with
  | zero => contradiction
  | succ limit ih =>
      simp only [Heap.findScopeWithin] at search
      split at search
      · cases search
        exact .self
      · split at search
        · rename_i parent parent_eq
          exact .outer parent_eq (ih search)
        · contradiction

theorem functionScope_sees (heap : Heap) (c : Nat) : Sees heap c (heap.functionScope c) := by
  rw [Heap.functionScope]
  cases search : heap.findScopeWithin (·.isFunction) heap.scopes.size c with
  | none => exact .self
  | some found => exact findScopeWithin_sees search

theorem findFunctionScope_congr {first second : Heap} (ordered : Ordered first)
    (parents : ∀ c, c < first.scopes.size → (second.scope c).parent = (first.scope c).parent)
    (isFunction : ∀ c, c < first.scopes.size →
      (second.scope c).isFunction = (first.scope c).isFunction)
    {limit limit' : Nat} (below : c < limit) (below' : c < limit')
    (bound : c < first.scopes.size) :
    second.findScopeWithin (·.isFunction) limit c =
      first.findScopeWithin (·.isFunction) limit' c := by
  induction limit generalizing c limit' with
  | zero => omega
  | succ limit ih =>
      obtain ⟨limit', rfl⟩ : ∃ n, limit' = n + 1 := ⟨limit' - 1, by omega⟩
      simp only [Heap.findScopeWithin, parents c bound, isFunction c bound]
      split
      · rfl
      · cases parent : (first.scope c).parent with
        | none => rfl
        | some p =>
            have lower := ordered.parents c p parent
            exact ih (by omega) (by omega) (by omega)

end Chains

section Steady

/-- Images in which the watched variables are guarded. -/
structure Valid (watched : Nat → String → Prop) (i : Image) : Prop where
  ordered : Ordered i.heap
  guards : Guards watched i.heap

theorem Steady.valid (steady : Steady watched i j) : Valid watched j :=
  ⟨steady.ordered, steady.guards⟩

theorem Steady.refl (valid : Valid watched i) : Steady watched i i :=
  ⟨valid.ordered, valid.guards, Nat.le_refl _, fun _ _ => rfl, fun _ _ => rfl, fun _ _ _ => rfl,
    Nat.le_refl _, .refl _, .refl _⟩

theorem Steady.trans (first : Steady watched i j) (second : Steady watched j k) :
    Steady watched i k where
  ordered := second.ordered
  guards := second.guards
  scopes := Nat.le_trans first.scopes second.scopes
  parents c bound := (second.parents c (Nat.lt_of_lt_of_le bound first.scopes)).trans
    (first.parents c bound)
  isFunction c bound := (second.isFunction c (Nat.lt_of_lt_of_le bound first.scopes)).trans
    (first.isFunction c bound)
  kept b name member := (second.kept b name member).trans (first.kept b name member)
  vectors := Nat.le_trans first.vectors second.vectors
  bundles := first.bundles.trans second.bundles
  transfers := first.transfers.trans second.transfers

/-- Fewer variables are watched. -/
theorem Steady.fewer {some_ : Nat → String → Prop} (steady : Steady watched i j)
    (included : ∀ b name, some_ b name → watched b name) :
    Steady some_ i j :=
  { steady with
    guards := ⟨fun b name member => steady.guards.bound b name (included b name member),
      fun b name member => steady.guards.closures b name (included b name member)⟩
    kept := fun b name member => steady.kept b name (included b name member) }

theorem Steady.sees (steady : Steady watched i j) (ordered : Ordered i.heap)
    (bound : c < i.heap.scopes.size) :
    Sees j.heap c b ↔ Sees i.heap c b :=
  ⟨Sees.before ordered steady.parents bound, Sees.later ordered steady.parents bound⟩

theorem Steady.functionScope (steady : Steady watched i j) (ordered : Ordered i.heap)
    (bound : c < i.heap.scopes.size) :
    j.heap.functionScope c = i.heap.functionScope c := by
  rw [Heap.functionScope, Heap.functionScope,
    findFunctionScope_congr ordered steady.parents steady.isFunction
      (Nat.lt_of_lt_of_le bound steady.scopes) bound bound]

theorem Clear.steady (clear : Clear watched i.heap c names) (ordered : Ordered i.heap)
    (steady : Steady watched i j) :
    Clear watched j.heap c names :=
  ⟨Nat.lt_of_lt_of_le clear.bound steady.scopes, clear.values, fun b name member sees =>
    clear.guarded b name member ((steady.sees ordered clear.bound).mp sees)⟩

theorem Clear.mono {fewer : List String} (clear : Clear watched i.heap c names)
    (included : ∀ name ∈ fewer, name ∈ names) :
    Clear watched i.heap c fewer :=
  ⟨clear.bound, fun member => clear.values (included _ member), fun b name guarded sees member =>
    clear.guarded b name guarded sees (included _ member)⟩

theorem Clear.left {more : List String} (clear : Clear watched i.heap c (names ++ more)) :
    Clear watched i.heap c names :=
  clear.mono fun _ member => List.mem_append_left _ member

theorem Clear.right {more : List String} (clear : Clear watched i.heap c (more ++ names)) :
    Clear watched i.heap c names :=
  clear.mono fun _ member => List.mem_append_right _ member

theorem Undeclared.steady (undeclared : Undeclared watched i.heap c names)
    (ordered : Ordered i.heap) (bound : c < i.heap.scopes.size) (steady : Steady watched i j) :
    Undeclared watched j.heap c names := by
  intro b name member host
  rw [steady.functionScope ordered bound] at host
  exact undeclared b name member host

theorem Undeclared.mono {fewer : List String} (undeclared : Undeclared watched i.heap c names)
    (included : ∀ name ∈ fewer, name ∈ names) :
    Undeclared watched i.heap c fewer :=
  fun b name guarded host member => undeclared b name guarded host (included _ member)

theorem Undeclared.left {more : List String}
    (undeclared : Undeclared watched i.heap c (names ++ more)) :
    Undeclared watched i.heap c names :=
  undeclared.mono fun _ member => List.mem_append_left _ member

theorem Undeclared.right {more : List String}
    (undeclared : Undeclared watched i.heap c (more ++ names)) :
    Undeclared watched i.heap c names :=
  undeclared.mono fun _ member => List.mem_append_right _ member

theorem Quiet.steady (quiet : Quiet i j) (valid : Valid watched i) : Steady watched i j := by
  have scope : ∀ c, j.heap.scope c = i.heap.scope c := fun c => by
    rw [Heap.scope, quiet.scopes, Heap.scope]
  have sees : ∀ c b, Sees j.heap c b → Sees i.heap c b := by
    intro c b sees
    induction sees with
    | self => exact .self
    | outer parent _ ih => exact .outer (by rw [← scope]; exact parent) ih
  refine ⟨⟨?_, ?_, ?_, fun n => by rw [quiet.callables]; exact valid.ordered.natives n⟩, ⟨?_, ?_⟩,
    ?_, fun c _ => by rw [scope], fun c _ => by rw [scope], fun b name _ => by rw [scope],
    quiet.vectors, quiet.bundles, quiet.transfers⟩
  · rw [quiet.scopes]
    exact valid.ordered.global
  · intro c p parent
    rw [scope] at parent
    exact valid.ordered.parents c p parent
  · intro a params body c callable
    rw [quiet.callables] at callable
    rw [quiet.scopes]
    exact valid.ordered.closures a params body c callable
  · intro b name member
    rw [quiet.scopes]
    exact valid.guards.bound b name member
  · intro b name member a params body c callable seen
    rw [quiet.callables] at callable
    exact valid.guards.closures b name member a params body c callable (sees _ _ seen)
  · rw [quiet.scopes]

theorem Steady.bind {x : Run α} {rest : α → Run β} (first : Steady watched i (imageOf (x i)))
    (second : ∀ a j, x i = .ok a j → Steady watched i j →
      Steady watched j (imageOf (rest a j))) :
    Steady watched i (imageOf ((x >>= rest) i)) := by
  change Steady watched i (imageOf (EStateM.bind x rest i))
  rw [EStateM.bind]
  cases ended : x i with
  | ok a j =>
      rw [ended] at first
      exact first.trans (second a j ended first)
  | error interrupt j =>
      rw [ended] at first
      exact first

theorem IsQuiet.steady {step : Run α} (quiet : IsQuiet step) (valid : Valid watched i) :
    Steady watched i (imageOf (step i)) :=
  (quiet i).steady valid

/-- A run with a quiet step after it. -/
theorem Steady.thenQuiet {x : Run α} {rest : α → Run β}
    (first : Steady watched i (imageOf (x i))) (quiet : ∀ a, IsQuiet (rest a)) :
    Steady watched i (imageOf ((x >>= rest) i)) :=
  first.bind fun a _ _ steady => (quiet a).steady steady.valid

end Steady

section Scopes

/-- A variable that gets a value guards nothing and reveals nothing. -/
theorem Valid.bindVariable (valid : Valid watched i) {target : Nat} {name : String}
    (value : Value) (bound : target < i.heap.scopes.size) :
    Valid watched { i with heap := i.heap.bindVariable target name value } := by
  have scope := fun c => bindVariable_scope i.heap name value c bound
  have parents : ∀ c, ((i.heap.bindVariable target name value).scope c).parent =
      (i.heap.scope c).parent := by
    intro c
    rw [scope]
    split
    · rename_i same
      rw [same]
    · rfl
  have sees : ∀ c b, Sees (i.heap.bindVariable target name value) c b → Sees i.heap c b := by
    intro c b sees
    induction sees with
    | self => exact .self
    | outer parent _ ih => exact .outer (by rw [← parents]; exact parent) ih
  have size : (i.heap.bindVariable target name value).scopes.size = i.heap.scopes.size :=
    Array.size_modify ..
  refine ⟨⟨?_, ?_, ?_, valid.ordered.natives⟩, ⟨?_, ?_⟩⟩
  · rw [size]
    exact valid.ordered.global
  · intro c p parent
    rw [parents] at parent
    exact valid.ordered.parents c p parent
  · intro a params body c callable
    rw [size]
    exact valid.ordered.closures a params body c callable
  · intro b other member
    rw [size]
    exact valid.guards.bound b other member
  · intro b other member a params body c callable seen
    exact valid.guards.closures b other member a params body c callable (sees _ _ seen)

theorem Steady.bindVariable (valid : Valid watched i) {target : Nat} {name : String}
    (value : Value) (bound : target < i.heap.scopes.size) (unguarded : ¬ watched target name) :
    Steady watched i { i with heap := i.heap.bindVariable target name value } := by
  have scope := fun c => bindVariable_scope i.heap name value c bound
  have valid' := @Valid.bindVariable _ _ valid target name value bound
  have size : (i.heap.bindVariable target name value).scopes.size = i.heap.scopes.size :=
    Array.size_modify ..
  refine ⟨valid'.ordered, valid'.guards, Nat.le_of_eq size.symm, fun c _ => ?_, fun c _ => ?_,
    fun b other member => ?_, Nat.le_refl _, .refl _, .refl _⟩
  · rw [scope]
    split
    · rename_i same
      rw [same]
    · rfl
  · rw [scope]
    split
    · rename_i same
      rw [same]
    · rfl
  · rw [scope]
    split
    · rename_i same
      subst same
      have different : name ≠ other := fun same => unguarded (same ▸ member)
      rw [Std.TreeMap.getElem?_insert, if_neg]
      rwa [Std.LawfulEqCmp.compare_eq_iff_eq]
    · rfl

/-- A new scope. -/
theorem Steady.allocScope (valid : Valid watched i) {scope : Scope} {p : Nat}
    (parent : scope.parent = some p) (bound : p < i.heap.scopes.size) :
    Steady watched i { i with heap := (i.heap.allocScope scope).2 } := by
  have scopeAt : ∀ c, (i.heap.allocScope scope).2.scope c =
      if c = i.heap.scopes.size then scope else i.heap.scope c := fun c => getD_push _ _ _ c
  have size : (i.heap.allocScope scope).2.scopes.size = i.heap.scopes.size + 1 :=
    Array.size_push ..
  have same : ∀ c, c < i.heap.scopes.size → (i.heap.allocScope scope).2.scope c = i.heap.scope c :=
    fun c lower => by rw [scopeAt, if_neg (Nat.ne_of_lt lower)]
  have parents : ∀ c, c < i.heap.scopes.size →
      ((i.heap.allocScope scope).2.scope c).parent = (i.heap.scope c).parent :=
    fun c lower => by rw [same c lower]
  refine ⟨⟨?_, ?_, ?_, valid.ordered.natives⟩, ⟨?_, ?_⟩, ?_, parents, ?_, ?_, Nat.le_refl _,
    .refl _, .refl _⟩
  · rw [size]
    omega
  · intro c q held
    rw [scopeAt] at held
    split at held
    · rename_i last
      rw [parent] at held
      cases held
      rw [last]
      exact bound
    · exact valid.ordered.parents c q held
  · intro a params body c callable
    obtain ⟨lower, values⟩ := valid.ordered.closures a params body c callable
    rw [size]
    exact ⟨Nat.lt_succ_of_lt lower, values⟩
  · intro b name member
    rw [size]
    exact Nat.lt_succ_of_lt (valid.guards.bound b name member)
  · intro b name member a params body c callable seen
    have lower := (valid.ordered.closures a params body c callable).1
    exact valid.guards.closures b name member a params body c callable
      (seen.before valid.ordered parents lower)
  · rw [size]
    exact Nat.le_succ _
  · intro c lower
    rw [same c lower]
  · intro b name member
    rw [same b (valid.guards.bound b name member)]

theorem allocScope_scope (heap : Heap) (scope : Scope) :
    (heap.allocScope scope).2.scope heap.scopes.size = scope := by
  change (heap.scopes.push scope).getD heap.scopes.size default = scope
  rw [getD_push, if_pos rfl]

/-- Code may do in a new scope what it may do in the scope around it. -/
theorem Clear.allocScope (valid : Valid watched i) {scope : Scope} {p : Nat}
    (parent : scope.parent = some p) (clear : Clear watched i.heap p names) :
    Clear watched (i.heap.allocScope scope).2 i.heap.scopes.size names := by
  have steady := Steady.allocScope valid parent clear.bound
  refine ⟨by simp [Heap.allocScope], clear.values, fun b name member sees => ?_⟩
  cases sees with
  | self => exact absurd (valid.guards.bound _ _ member) (Nat.lt_irrefl _)
  | outer held sees =>
      rw [allocScope_scope, parent] at held
      cases held
      exact clear.guarded b name member ((steady.sees valid.ordered clear.bound).mp sees)

/-- A scope that is no function's has its variables declared around it. -/
theorem Undeclared.allocScope (valid : Valid watched i) {scope : Scope} {p : Nat}
    (parent : scope.parent = some p) (shared : scope.isFunction = false)
    (bound : p < i.heap.scopes.size) (undeclared : Undeclared watched i.heap p names) :
    Undeclared watched (i.heap.allocScope scope).2 i.heap.scopes.size names := by
  have steady := Steady.allocScope valid parent bound
  have found := findFunctionScope_congr valid.ordered steady.parents steady.isFunction
    bound bound bound
  have size : (i.heap.allocScope scope).2.scopes.size = i.heap.scopes.size + 1 :=
    Array.size_push ..
  intro b name member host
  rw [Heap.functionScope, size, Heap.findScopeWithin, allocScope_scope, parent, shared] at host
  simp only [Bool.false_eq_true, if_false, found] at host
  cases search : i.heap.findScopeWithin (·.isFunction) i.heap.scopes.size p with
  | some owner =>
      rw [search] at host
      refine undeclared b name member ?_
      rw [Heap.functionScope, search]
      exact host
  | none =>
      rw [search] at host
      subst host
      exact absurd (valid.guards.bound _ _ member) (Nat.lt_irrefl _)

end Scopes

section Evaluation

variable {call : Caller} {turns : Nat}

/-- Calls leave watched variables as they are. -/
def CallsSteady (call : Caller) : Prop :=
  ∀ watched function args i, Valid watched i →
    Steady watched i (imageOf (call function args i))

/-- A block of statements leaves watched variables as they are wherever it may stand. -/
def BlockSteady (watched : Nat → String → Prop) (call : Caller) (turns : Nat) (body : List Stmt) :
    Prop :=
  ∀ c i, Valid watched i → Clear watched i.heap c (Stmt.assignedAll body) →
    Undeclared watched i.heap c (Stmt.declaredAll body) →
    Steady watched i (imageOf (execBlock call turns c body i))

theorem Steady.activation {body : List Stmt} (block : BlockSteady watched call turns body)
    (valid : Valid watched i) {parent : Nat} (params : List String) (args : List Value)
    (clear : Clear watched i.heap parent (Stmt.assignedAll body)) :
    Steady watched i (imageOf ((openActivation parent params args >>= fun inner =>
      execBlock call turns inner body >>= resultOf) i)) := by
  rw [openActivation]
  split
  · exact .refl valid
  simp only [bind_assoc]
  refine .bind (IsQuiet.steady (.allocVector _) valid) fun vector j _ steady => ?_
  have clear' := clear.steady valid.ordered steady
  set scope : Scope := ⟨(parameterVariables params args {}).insert "arguments" vector,
    some parent, true⟩ with scope_eq
  have opened := @Steady.allocScope _ _ steady.valid scope _ rfl clear'.bound
  refine .bind (x := Run.onHeap (·.allocScope scope)) opened fun inner j' done _ => ?_
  cases done
  have own : (j.heap.allocScope scope).2.functionScope j.heap.scopes.size = j.heap.scopes.size := by
    have size : (j.heap.allocScope scope).2.scopes.size = j.heap.scopes.size + 1 :=
      Array.size_push ..
    rw [Heap.functionScope, size, Heap.findScopeWithin, allocScope_scope, scope_eq]
    rfl
  refine .thenQuiet (block _ _ opened.valid (clear'.allocScope steady.valid rfl) ?_) ?_
  · -- the new scope is none of the guarded ones
    intro b name member host
    replace host := own.symm.trans host
    subst host
    exact absurd (steady.valid.guards.bound _ _ member) (Nat.lt_irrefl _)
  · intro flow
    cases flow <;> first | exact .pure _ | exact .fail _


theorem Steady.allocFunction (valid : Valid watched i) (params : List String) (body : List Stmt)
    (clear : Clear watched i.heap c (Stmt.assignedAll body)) :
    Steady watched i { i with heap := (i.heap.allocFunction (.closure params body c)).2 } := by
  have function : ∀ a, (i.heap.allocFunction (.closure params body c)).2.function a =
      if a = i.heap.functions.size then ⟨.closure params body c, {}⟩ else i.heap.function a :=
    fun a => getD_push _ _ _ a
  have sees : ∀ d b, Sees (i.heap.allocFunction (.closure params body c)).2 d b →
      Sees i.heap d b := by
    intro d b sees
    induction sees with
    | self => exact .self
    | outer parent _ ih => exact .outer parent ih
  refine ⟨⟨valid.ordered.global, valid.ordered.parents, ?_, fun n => ?_⟩,
    ⟨valid.guards.bound, ?_⟩, Nat.le_refl _, fun _ _ => rfl, fun _ _ => rfl, fun _ _ _ => rfl, Nat.le_refl _, .refl _,
    .refl _⟩
  · intro a params' body' c' callable
    rw [function] at callable
    split at callable
    · cases callable
      exact ⟨clear.bound, clear.values⟩
    · exact valid.ordered.closures a params' body' c' callable
  · have there := valid.ordered.natives n
    rw [function, if_neg]
    · exact there
    · intro new
      rw [new, Heap.function, Array.getD_eq_getD_getElem?, Array.getElem?_eq_none (Nat.le_refl _)]
        at there
      cases there
  · intro b name member a params' body' c' callable seen
    rw [function] at callable
    split at callable
    · cases callable
      exact clear.guarded b name member (sees _ _ seen)
    · exact valid.guards.closures b name member a params' body' c' callable (sees _ _ seen)

/-- Code may declare and assign to what is its own. -/
theorem Steady.declareVariable (valid : Valid watched i) {name : String}
    (bound : c < i.heap.scopes.size) (undeclared : Undeclared watched i.heap c [name]) :
    Steady watched i { i with heap := i.heap.declareVariable c name } := by
  have host := (functionScope_sees i.heap c).le valid.ordered
  rw [Heap.declareVariable]
  split
  · exact .refl valid
  · exact .bindVariable valid _ (Nat.lt_of_le_of_lt host bound)
      fun member => undeclared _ name member rfl List.mem_cons_self

theorem Steady.defineVariable (valid : Valid watched i) {name : String} (value : Value)
    (bound : c < i.heap.scopes.size) (undeclared : Undeclared watched i.heap c [name]) :
    Steady watched i { i with heap := i.heap.defineVariable c name value } :=
  .bindVariable valid value
    (Nat.lt_of_le_of_lt ((functionScope_sees i.heap c).le valid.ordered) bound)
    fun member => undeclared _ name member rfl List.mem_cons_self

theorem Steady.assignVariable (valid : Valid watched i) {name : String} (value : Value)
    (clear : Clear watched i.heap c [name]) :
    Steady watched i (imageOf (assignTo call turns c value (.ident name) i)) := by
  rw [assignTo_ident_eq]
  cases owned : i.heap.variableScope? c name with
  | none => exact .refl valid
  | some owner =>
      have sees : Sees i.heap c owner := findScopeWithin_sees owned
      exact .bindVariable valid value (Nat.lt_of_le_of_lt (sees.le valid.ordered) clear.bound)
        fun member => clear.guarded owner name member sees List.mem_cons_self

theorem Steady.handling {block : Run Flow} {handler : Value → Run Flow}
    (first : Steady watched i (imageOf (block i)))
    (second : ∀ thrown j, Steady watched i j → Steady watched j (imageOf (handler thrown j))) :
    Steady watched i (imageOf (handling block handler i)) := by
  rw [Machine.handling]
  cases ended : block i with
  | ok flow j => rwa [ended] at first
  | error interrupt j =>
      rw [ended] at first
      cases interrupt with
      | thrown thrown => exact first.trans (second thrown j first)
      | failed error => exact first
      | outOfSteps => exact first

theorem Steady.ensuring {block cleanup : Run Flow} (first : Steady watched i (imageOf (block i)))
    (second : ∀ j, Steady watched i j → Steady watched j (imageOf (cleanup j))) :
    Steady watched i (imageOf (ensuring block cleanup i)) := by
  have after : ∀ (j : Image) (result : EStateM.Result Interrupt Image Flow),
      imageOf result = imageOf (cleanup j) → Steady watched i j →
        Steady watched i (imageOf result) := by
    intro j result same steady
    rw [same]
    exact steady.trans (second j steady)
  rw [Machine.ensuring]
  cases ended : block i with
  | ok flow j =>
      rw [ended] at first
      refine after j _ ?_ first
      simp only
      split
      · rename_i done
        rw [done]
        rfl
      · rfl
  | error interrupt j =>
      rw [ended] at first
      cases interrupt with
      | outOfSteps => exact first
      | thrown thrown =>
          refine after j _ ?_ first
          simp only
          split
          · rename_i done
            rw [done]
            rfl
          · rfl
      | failed error =>
          refine after j _ ?_ first
          simp only
          split
          · rename_i done
            rw [done]
            rfl
          · rfl

theorem Steady.repeatWhile {label : Option String} {test : Run Value} {body : Run Flow}
    (valid : Valid watched i)
    (tested : ∀ j, Steady watched i j → Steady watched j (imageOf (test j)))
    (run : ∀ j, Steady watched i j → Steady watched j (imageOf (body j))) :
    Steady watched i (imageOf (repeatWhile label test body turns i)) := by
  induction turns generalizing i with
  | zero => exact .refl valid
  | succ turns ih =>
      rw [Machine.repeatWhile]
      refine .bind (tested i (.refl valid)) fun value j _ steady => ?_
      split
      · refine .bind (run j steady) fun flow k _ further => ?_
        cases flow with
        | normal =>
            have onward := steady.trans further
            exact ih further.valid (fun l later => tested l (onward.trans later))
              fun l later => run l (onward.trans later)
        | left target => exact .refl further.valid
        | returned value => exact .refl further.valid
      · exact .refl steady.valid

/-- The cases after one whose body has ended. -/
theorem Steady.fallThrough {flow : Flow} {rest : Run Flow} (valid : Valid watched i)
    (onward : Steady watched i (imageOf (rest i))) :
    Steady watched i (imageOf ((match flow with
      | .normal => rest
      | .left none => pure .normal
      | flow => pure flow) i)) := by
  cases flow with
  | normal => exact onward
  | returned _ => exact .refl valid
  | left target => cases target <;> exact .refl valid

/-- What is known where code runs: the watched variables are guarded, and the code assigns to none
of them. -/
structure Runs (watched : Nat → String → Prop) (i : Image) (c : Nat) (names : List String) :
    Prop where
  valid : Valid watched i
  clear : Clear watched i.heap c names

theorem Runs.left {more : List String} (runs : Runs watched i c (names ++ more)) :
    Runs watched i c names :=
  ⟨runs.valid, runs.clear.left⟩

theorem Runs.right {more : List String} (runs : Runs watched i c (more ++ names)) :
    Runs watched i c names :=
  ⟨runs.valid, runs.clear.right⟩

theorem Runs.steady (runs : Runs watched i c names) (steady : Steady watched i j) :
    Runs watched j c names :=
  ⟨steady.valid, runs.clear.steady runs.valid.ordered steady⟩

mutual

theorem evalExpr_steady (calls : CallsSteady call) :
    ∀ (code : Expr) (i : Image) (c : Nat), Runs watched i c code.assigned →
      Steady watched i (imageOf (evalExpr call turns c code i))
  | .number _, i, _, runs | .bool _, i, _, runs | .undefined, i, _, runs => .refl runs.valid
  | .string _, i, _, runs => IsQuiet.steady (.newString _) runs.valid
  | .ident name, i, c, runs => by
      rw [evalExpr]
      refine IsQuiet.steady (.bind .heap fun heap => ?_) runs.valid
      split
      · exact .pure _
      · exact .fail _
  | .support member, i, c, runs => by
      rw [evalExpr]
      refine IsQuiet.steady ?_ runs.valid
      split
      · exact .pure _
      · exact .fail _
  | .member object property, i, c, runs => by
      rw [evalExpr]
      exact .thenQuiet (evalExpr_steady calls object i c runs) fun value =>
        (elementary_getProperty value property).quiet
  | .index object position, i, c, runs => by
      rw [evalExpr]
      refine .bind (evalExpr_steady calls object i c runs.left) fun value j _ steady => ?_
      exact .thenQuiet (evalExpr_steady calls position j c (runs.right.steady steady))
        fun at_ => (elementary_getElement value at_).quiet
  | .call callee args, i, c, runs => by
      by_cases literal : ∃ params body, callee = .function params body
      · obtain ⟨params, body, rfl⟩ := literal
        rw [evalExpr]
        refine .bind (evalList_steady calls args i c runs.right) fun values j _ steady => ?_
        exact .activation (fun _ _ valid clear undeclared =>
          execBlock_steady calls body _ _ ⟨valid, clear⟩ undeclared) steady.valid params values
          (runs.left.steady steady).clear
      · rw [evalExpr]
        · refine .bind (evalExpr_steady calls callee i c runs.left) fun function j _ steady => ?_
          refine .bind (evalList_steady calls args j c (runs.right.steady steady))
            fun values k _ further => ?_
          exact calls watched function values k further.valid
        · exact fun params body same => literal ⟨params, body, same⟩
  | .function params body, i, c, runs => .allocFunction runs.valid params body runs.clear
  | .array items, i, c, runs => by
      rw [evalExpr]
      exact .thenQuiet (evalList_steady calls items i c runs) fun values => .newVector values
  | .binary op left right, i, c, runs => by
      have first := evalExpr_steady calls left i c runs.left
      have second : ∀ j, Steady watched i j →
          Steady watched j (imageOf (evalExpr call turns c right j)) := fun j steady =>
        evalExpr_steady calls right j c (runs.right.steady steady)
      cases op
      case and =>
        rw [evalExpr]
        refine .bind first fun value j _ steady => ?_
        split
        · exact second j steady
        · exact .refl steady.valid
      case or =>
        rw [evalExpr]
        refine .bind first fun value j _ steady => ?_
        split
        · exact .refl steady.valid
        · exact second j steady
      all_goals
        simp only [evalExpr]
        exact .bind first fun value j _ steady =>
          (second j steady).thenQuiet fun other => (elementary_applyBinary _ value other).quiet
  | .unary op operand, i, c, runs => by
      rw [evalExpr]
      exact .thenQuiet (evalExpr_steady calls operand i c runs) fun value => (elementary_applyUnary op value).quiet
  | .cond test yes no, i, c, runs => by
      rw [evalExpr]
      refine .bind (evalExpr_steady calls test i c runs.left) fun value j _ steady => ?_
      split
      · exact evalExpr_steady calls yes j c (runs.right.left.steady steady)
      · exact evalExpr_steady calls no j c (runs.right.right.steady steady)
  | .assign target value, i, c, runs => by
      rw [evalExpr]
      refine .bind (evalExpr_steady calls value i c runs.right) fun held j _ steady => ?_
      exact .thenQuiet (assignTo_steady calls target held j c (runs.left.steady steady))
        fun _ => .pure _
  | .comma items, i, c, runs => by
      rw [evalExpr]
      exact .thenQuiet (evalList_steady calls items i c runs) fun _ => .pure _

theorem evalList_steady (calls : CallsSteady call) :
    ∀ (codes : List Expr) (i : Image) (c : Nat), Runs watched i c (Expr.assignedAll codes) →
      Steady watched i (imageOf (evalList call turns c codes i))
  | [], i, c, runs => .refl runs.valid
  | code :: rest, i, c, runs => by
      rw [evalList]
      refine .bind (evalExpr_steady calls code i c runs.left) fun value j _ steady => ?_
      exact .thenQuiet (evalList_steady calls rest j c (runs.right.steady steady)) fun _ => .pure _

theorem assignTo_steady (calls : CallsSteady call) :
    ∀ (target : Expr) (value : Value) (i : Image) (c : Nat),
      Runs watched i c (target.named ++ target.assigned) →
      Steady watched i (imageOf (assignTo call turns c value target i))
  | .ident name, value, i, c, runs => .assignVariable runs.valid value runs.left.clear
  | .member object property, value, i, c, runs => by
      rw [assignTo]
      exact .thenQuiet (evalExpr_steady calls object i c runs) fun held =>
        (elementary_setProperty held property value).quiet
  | .index object position, value, i, c, runs => by
      rw [assignTo]
      have runs : Runs watched i c (object.assigned ++ position.assigned) := runs
      refine .bind (evalExpr_steady calls object i c runs.left) fun held j _ steady => ?_
      exact .thenQuiet (evalExpr_steady calls position j c (runs.right.steady steady))
        fun at_ => (elementary_setElement held at_ value).quiet
  | .number _, _, _, _, runs | .string _, _, _, _, runs | .bool _, _, _, _, runs
  | .undefined, _, _, _, runs | .support _, _, _, _, runs | .call _ _, _, _, _, runs
  | .function _ _, _, _, _, runs | .array _, _, _, _, runs | .binary _ _ _, _, _, _, runs
  | .unary _ _, _, _, _, runs | .cond _ _ _, _, _, _, runs | .assign _ _, _, _, _, runs
  | .comma _, _, _, _, runs => .refl runs.valid

theorem exec_steady (calls : CallsSteady call) :
    ∀ (stmt : Stmt) (i : Image) (c : Nat), Runs watched i c stmt.assigned →
      Undeclared watched i.heap c stmt.declared →
      Steady watched i (imageOf (exec call turns c stmt i))
  | .declare name, i, c, runs, undeclared =>
      .declareVariable runs.valid runs.clear.bound undeclared
  | .define name value, i, c, runs, undeclared => by
      rw [exec]
      refine .bind (evalExpr_steady calls value i c runs) fun held j _ steady => ?_
      have undeclared := undeclared.steady runs.valid.ordered runs.clear.bound steady
      exact .defineVariable steady.valid held (runs.steady steady).clear.bound undeclared
  | .effect value, i, c, runs, _ => by
      rw [exec]
      exact .thenQuiet (evalExpr_steady calls value i c runs) fun _ => .pure _
  | .ret value, i, c, runs, _ => by
      rw [exec]
      exact .thenQuiet (evalExpr_steady calls value i c runs) fun _ => .pure _
  | .branch test yes no, i, c, runs, undeclared => by
      rw [exec]
      refine .bind (evalExpr_steady calls test i c runs.left) fun value j _ steady => ?_
      have undeclared := undeclared.steady runs.valid.ordered runs.clear.bound steady
      split
      · exact execBlock_steady calls yes j c (runs.right.left.steady steady) undeclared.left
      · exact execBlock_steady calls no j c (runs.right.right.steady steady) undeclared.right
  | .loop label test body, i, c, runs, undeclared => by
      rw [exec]
      refine .repeatWhile runs.valid
        (fun j steady => evalExpr_steady calls test j c (runs.left.steady steady))
        fun j steady => execBlock_steady calls body j c (runs.right.steady steady)
          (undeclared.steady runs.valid.ordered runs.clear.bound steady)
  | .iterate start test update body, i, c, runs, undeclared => by
      rw [exec]
      refine .bind (evalExpr_steady calls start i c runs.left) fun _ j _ steady => ?_
      have runs' := runs.right.steady steady
      have undeclared := undeclared.steady runs.valid.ordered runs.clear.bound steady
      refine .repeatWhile steady.valid
        (fun k further => evalExpr_steady calls test k c (runs'.left.steady further))
        fun k further => ?_
      refine .bind (execBlock_steady calls body k c (runs'.right.right.steady further)
        (undeclared.steady steady.valid.ordered runs'.clear.bound further)) fun flow l _ later => ?_
      cases flow with
      | normal =>
          exact .thenQuiet (evalExpr_steady calls update l c
            (runs'.right.left.steady (further.trans later))) fun _ => .pure _
      | returned _ => exact .refl later.valid
      | left _ => exact .refl later.valid
  | .select subject cases_, i, c, runs, undeclared => by
      rw [exec]
      refine .bind (evalExpr_steady calls subject i c runs.left) fun value j _ steady => ?_
      refine .bind (chooseCase_steady calls cases_ value j c (runs.right.steady steady))
        fun chosen k _ further => ?_
      have onward := steady.trans further
      cases chosen.orElse fun _ => cases_.findIdx? (·.isDefault) with
      | some start =>
          exact execCases_steady calls cases_ start k c (runs.right.steady onward)
            (undeclared.steady runs.valid.ordered runs.clear.bound onward)
      | none => exact .refl onward.valid
  | .leave label, i, c, runs, _ => .refl runs.valid
  | .raise value, i, c, runs, _ => by
      rw [exec]
      exact .thenQuiet (evalExpr_steady calls value i c runs) fun thrown j => .refl j
  | .guarded block handler cleanup, i, c, runs, undeclared => by
      have handled : Steady watched i (imageOf ((match handler with
          | .none => execBlock call turns c block
          | .catching param body =>
              handling (execBlock call turns c block) fun thrown => do
                let inner ← openHandler c param thrown
                execBlock call turns inner body) i)) := by
        have first := execBlock_steady calls block i c runs.left undeclared.left
        cases handler with
        | none => exact first
        | catching param body =>
            refine .handling first fun thrown j steady => ?_
            have undeclared : Undeclared watched j.heap c (Stmt.declaredAll body) :=
              undeclared.right.left.steady runs.valid.ordered runs.clear.bound steady
            have runs : Runs watched j c (Stmt.assignedAll body) := runs.right.left.steady steady
            set scope : Scope := ⟨({} : Variables).insert param thrown, some c, false⟩
            have opened := @Steady.allocScope _ _ runs.valid scope _ rfl runs.clear.bound
            refine .bind (x := Run.onHeap (·.allocScope scope)) opened fun inner j' done _ => ?_
            cases done
            exact execBlock_steady calls body _ _
              ⟨opened.valid, runs.clear.allocScope runs.valid rfl⟩
              (undeclared.allocScope runs.valid rfl rfl runs.clear.bound)
      have cleaned : ∀ body j, cleanup = .always body → Steady watched i j →
          Steady watched j (imageOf (execBlock call turns c body j)) := by
        rintro body j rfl steady
        exact execBlock_steady calls body j c (runs.right.right.steady steady)
          (undeclared.right.right.steady runs.valid.ordered runs.clear.bound steady)
      cases cleanup with
      | none => cases handler <;> exact handled
      | always body =>
          cases handler <;> exact .ensuring handled fun j steady => cleaned body j rfl steady

theorem execBlock_steady (calls : CallsSteady call) :
    ∀ (stmts : List Stmt) (i : Image) (c : Nat), Runs watched i c (Stmt.assignedAll stmts) →
      Undeclared watched i.heap c (Stmt.declaredAll stmts) →
      Steady watched i (imageOf (execBlock call turns c stmts i))
  | [], i, c, runs, _ => .refl runs.valid
  | stmt :: rest, i, c, runs, undeclared => by
      rw [execBlock]
      refine .bind (exec_steady calls stmt i c runs.left undeclared.left) fun flow j _ steady => ?_
      cases flow with
      | normal =>
          exact execBlock_steady calls rest j c (runs.right.steady steady)
            (undeclared.right.steady runs.valid.ordered runs.clear.bound steady)
      | returned _ => exact .refl steady.valid
      | left _ => exact .refl steady.valid

theorem chooseCase_steady (calls : CallsSteady call) :
    ∀ (cases_ : List Case) (value : Value) (i : Image) (c : Nat),
      Runs watched i c (Case.assignedAll cases_) →
      Steady watched i (imageOf (chooseCase call turns c value cases_ i))
  | [], _, i, c, runs => .refl runs.valid
  | .otherwise body :: rest, value, i, c, runs => by
      rw [chooseCase]
      exact .thenQuiet (chooseCase_steady calls rest value i c runs.right) fun _ => .pure _
  | .case test body :: rest, value, i, c, runs => by
      rw [chooseCase]
      refine .bind (evalExpr_steady calls test i c runs.left.left) fun held j _ steady => ?_
      split
      · exact .refl steady.valid
      · exact .thenQuiet (chooseCase_steady calls rest value j c (runs.right.steady steady))
          fun _ => .pure _

theorem execCases_steady (calls : CallsSteady call) :
    ∀ (cases_ : List Case) (start : Nat) (i : Image) (c : Nat),
      Runs watched i c (Case.assignedAll cases_) →
      Undeclared watched i.heap c (Case.declaredAll cases_) →
      Steady watched i (imageOf (execCases call turns c start cases_ i))
  | [], _, i, c, runs, _ => .refl runs.valid
  | case_ :: rest, start + 1, i, c, runs, undeclared =>
      execCases_steady calls rest start i c runs.right undeclared.right
  | .case test body :: rest, 0, i, c, runs, undeclared => by
      rw [execCases]
      refine .bind (execBlock_steady calls body i c runs.left.right undeclared.left)
        fun flow j _ steady => ?_
      have onward := execCases_steady calls rest 0 j c (runs.right.steady steady)
        (undeclared.right.steady runs.valid.ordered runs.clear.bound steady)
      exact .fallThrough steady.valid onward
  | .otherwise body :: rest, 0, i, c, runs, undeclared => by
      rw [execCases]
      refine .bind (execBlock_steady calls body i c runs.left undeclared.left)
        fun flow j _ steady => ?_
      have onward := execCases_steady calls rest 0 j c (runs.right.steady steady)
        (undeclared.right.steady runs.valid.ordered runs.clear.bound steady)
      exact .fallThrough steady.valid onward

end

end Evaluation

section Calling

theorem Steady.withDepth (steady : Steady watched i j) (n m : Nat) :
    Steady watched { i with depth := n } { j with depth := m } :=
  ⟨steady.ordered, steady.guards, steady.scopes, steady.parents, steady.isFunction, steady.kept,
    steady.vectors, steady.bundles, steady.transfers⟩

theorem Steady.counted {run : Run α} (valid : Valid watched i)
    (steady : Steady watched { i with depth := i.depth + 1 }
      (imageOf (run { i with depth := i.depth + 1 }))) :
    Steady watched i (imageOf (counted run i)) := by
  rw [Machine.counted]
  split
  · cases ended : run { i with depth := i.depth + 1 } with
    | ok a j =>
        rw [ended] at steady
        exact steady.withDepth i.depth (j.depth - 1)
    | error interrupt j =>
        rw [ended] at steady
        exact steady.withDepth i.depth (j.depth - 1)
  · exact .refl valid

theorem runPrimitive_steady {call : Caller} (calls : CallsSteady call) (p : Primitive)
    (args : List Value) (valid : Valid watched i) :
    Steady watched i (imageOf (runPrimitive call p args i)) := by
  cases p
  case funcall =>
    exact .bind ((elementary_coerceFunction _).quiet.steady valid) fun function j _ steady =>
      calls watched function _ j steady.valid
  case apply =>
    refine .bind ((elementary_coerceFunction _).quiet.steady valid) fun function j _ steady => ?_
    cases (args.drop 2).getLast? with
    | some list =>
        exact .bind ((elementary_listItems list).quiet.steady steady.valid) fun spread k _ further =>
          calls watched function _ k further.valid
    | none => exact calls watched function _ j steady.valid
  case values => exact calls watched _ _ i valid
  case valuesList =>
    exact .bind ((elementary_listItems _).quiet.steady valid) fun items j _ steady =>
      calls watched _ items j steady.valid
  all_goals
    simp only [runPrimitive]
    exact (elementary_runBuiltin _ args).quiet.steady valid

theorem callPrimitive_steady {call : Caller} (calls : CallsSteady call) (p : Primitive)
    (args : List Value) (valid : Valid watched i) :
    Steady watched i (imageOf (callPrimitive call p args i)) := by
  rw [callPrimitive]
  split
  · exact runPrimitive_steady calls p _ valid
  · exact .refl valid

theorem runNative_steady {call : Caller} (calls : CallsSteady call) (n : Native)
    (args : List Value) (valid : Valid watched i) :
    Steady watched i (imageOf (runNative call n args i)) := by
  cases n with
  | primitive p => exact runPrimitive_steady calls p args valid
  | routine r =>
      cases r
      case deliverValues =>
        exact .bind (IsQuiet.steady (.valuesOf _) valid) fun values j _ steady =>
          calls watched _ values j steady.valid
      case applyVector =>
        exact .bind ((elementary_vectorItems _).quiet.steady valid) fun items j _ steady =>
          calls watched _ _ j steady.valid
      all_goals
        simp only [runNative]
        exact (elementary_runRoutine _ args).quiet.steady valid

/-- Calls leave watched variables as they are, since no closure that sees them assigns to them. -/
theorem callWithin_steady (steps : Nat) : CallsSteady (callWithin steps) := by
  induction steps with
  | zero => exact fun _ _ _ _ valid => .refl valid
  | succ steps ih =>
      intro watched function args i valid
      cases function with
      | function address =>
          rw [callWithin_function]
          cases callable : (i.heap.function address).callable with
          | closure params body scope =>
              have valid' : Valid watched { i with depth := i.depth + 1 } :=
                ⟨valid.ordered, valid.guards⟩
              obtain ⟨bound, values⟩ := valid.ordered.closures address params body scope callable
              exact .counted valid (.activation (fun c j valid clear undeclared =>
                execBlock_steady ih body j c ⟨valid, clear⟩ undeclared) valid' params args
                ⟨bound, values, fun b name member =>
                  valid.guards.closures b name member address params body scope callable⟩)
          | native n => exact runNative_steady ih n args valid
          | primitive p => exact callPrimitive_steady ih p args valid
      | _ => exact IsQuiet.steady (.bind (.describe _) fun _ => .fail _) valid

theorem runStatements_steady (steps : Nat) (last : Value) (stmts : List Stmt)
    (runs : Runs watched i Image.globalScope (Stmt.assignedAll stmts))
    (undeclared : Undeclared watched i.heap Image.globalScope (Stmt.declaredAll stmts)) :
    Steady watched i (imageOf (runStatements steps last stmts i)) := by
  induction stmts generalizing i last with
  | nil => exact .refl runs.valid
  | cons stmt rest ih =>
      have step : Steady watched i (imageOf (exec (callWithin steps) steps Image.globalScope stmt i)) :=
        exec_steady (callWithin_steady steps) stmt i _ runs.left undeclared.left
      have onward : ∀ j last, Steady watched i j →
          Steady watched j (imageOf (runStatements steps last rest j)) := fun j last steady =>
        ih last (runs.right.steady steady)
          (undeclared.right.steady runs.valid.ordered runs.clear.bound steady)
      by_cases effect : ∃ value, stmt = .effect value
      · obtain ⟨value, rfl⟩ := effect
        rw [runStatements]
        exact .bind (evalExpr_steady (callWithin_steady steps) value i _ runs.left)
          fun last j _ steady => onward j last steady
      · rw [runStatements]
        · refine .bind step fun flow j _ steady => ?_
          cases flow with
          | normal => exact onward j last steady
          | returned _ => exact .refl steady.valid
          | left _ => exact .refl steady.valid
        · exact fun value same => effect ⟨value, same⟩

/-- No variable at all. -/
def nothing (_ : Nat) (_ : String) : Prop := False

theorem Ordered.valid (ordered : Ordered i.heap) : Valid nothing i :=
  ⟨ordered, nofun, nofun⟩

theorem Ordered.call (ordered : Ordered i.heap) (function : Value) (args : List Value) :
    Ordered (imageOf (Machine.call function args i)).heap :=
  (callWithin_steady _ nothing function args i ordered.valid).ordered

/-- Scopes and closures stay in order through every run of a program that assigns to no variable that
holds an acceptor. -/
theorem Ordered.run (ordered : Ordered i.heap) {program : Program}
    (clear : "values" ∉ Stmt.assignedAll program.body) :
    Ordered (imageOf (Machine.run program i)).heap :=
  (runStatements_steady _ .undefined program.body
    ⟨ordered.valid, ordered.global, clear, nofun⟩ nofun).ordered

end Calling

end LispScript.Machine
