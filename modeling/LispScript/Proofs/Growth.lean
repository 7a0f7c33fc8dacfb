import LispScript.Proofs.Invariant

/-!
How one state of a run leads to another: objects are only added, scopes keep their variables, and the
variables that are never assigned to keep their values. Each operation on scopes is shown to lead to
a state that is described again.
-/

namespace LispScript.Discipline

open Script

/-- A scope later in a run. -/
structure ScopeKept (layout : Layout) (scope later : Scope) : Prop where
  parent : later.parent = scope.parent
  isFunction : later.isFunction = scope.isFunction
  names : ∀ name, scope.vars.contains name = true → later.vars.contains name = true
  /-- A fixed variable keeps its value, and where it is that of a scope around, it stays so. -/
  fixed : ∀ name kind, layout name = some kind → kind.IsFixed →
    later.vars[name]? = scope.vars[name]?

/-- A state later in a run, when scopes may have got further variables. -/
structure Leads (W : World) (image : Image) (W' : World) (later : Image) : Prop where
  grows : W.Grows W'
  kept : ∀ (b : Nat) (layout : Layout), W.scopes[b]? = some layout →
    ScopeKept layout (image.heap.scope b) (later.heap.scope b)
  transfers : ∀ a, a < W.transfers → later.heap.transfer a = image.heap.transfer a

/-- A state later in a run that gave no further variables to the scopes there were. -/
structure Follows (W : World) (image : Image) (W' : World) (later : Image) : Prop where
  extends_ : W.Extends W'
  leads : Leads W image W' later

section Follows

variable {W W' W'' : World} {image later last : Image}

theorem ScopeKept.refl (layout : Layout) (scope : Scope) : ScopeKept layout scope scope :=
  ⟨rfl, rfl, fun _ known => known, fun _ _ _ _ => rfl⟩

theorem Leads.refl (W : World) (image : Image) : Leads W image W image :=
  ⟨World.Grows.refl W, fun _ layout _ => ScopeKept.refl layout _, fun _ _ => rfl⟩

theorem Leads.trans (first : Leads W image W' later) (second : Leads W' later W'' last) :
    Leads W image W'' last := by
  refine ⟨first.grows.trans second.grows, fun b layout found => ?_, fun a bound => ?_⟩
  · obtain ⟨wider, foundWider, included⟩ := first.grows.scopes b layout found
    have early := first.kept b layout found
    have late := second.kept b wider foundWider
    exact ⟨late.parent.trans early.parent, late.isFunction.trans early.isFunction,
      fun name known => late.names name (early.names name known),
      fun name kind listed fixed =>
        (late.fixed name kind (included name kind listed) fixed).trans
          (early.fixed name kind listed fixed)⟩
  · rw [second.transfers a (Nat.lt_of_lt_of_le bound first.grows.transfers),
      first.transfers a bound]

theorem Follows.refl (W : World) (image : Image) : Follows W image W image :=
  ⟨World.Extends.refl W, Leads.refl W image⟩

theorem Follows.trans (first : Follows W image W' later) (second : Follows W' later W'' last) :
    Follows W image W'' last :=
  ⟨first.extends_.trans second.extends_, first.leads.trans second.leads⟩

/-- A step that leaves scopes and earlier transfers alone. -/
theorem Follows.step (extends_ : W.Extends W') (scopes : later.heap.scopes = image.heap.scopes)
    (transfers : ∀ a, a < W.transfers → later.heap.transfer a = image.heap.transfer a) :
    Follows W image W' later := by
  refine ⟨extends_, extends_.grows, fun b layout found => ?_, transfers⟩
  have same : later.heap.scope b = image.heap.scope b := by rw [Heap.scope, scopes, Heap.scope]
  rw [same]
  exact ScopeKept.refl layout _

/-- A step that changes neither scopes nor transfers. -/
theorem Follows.stay (extends_ : W.Extends W') (scopes : later.heap.scopes = image.heap.scopes)
    (transfers : later.heap.transfers = image.heap.transfers) :
    Follows W image W' later :=
  Follows.step extends_ scopes fun a _ => by rw [Heap.transfer, transfers, Heap.transfer]

theorem Leads.admits (leads : Leads W image W' later) {frame : Frame} {b : Nat}
    (admits : W.Admits frame b) :
    W'.Admits frame b :=
  leads.grows.admits admits

end Follows

section Arrays

theorem getD_push (items : Array α) (item fallback : α) (i : Nat) :
    (items.push item).getD i fallback = if i = items.size then item else items.getD i fallback := by
  simp only [Array.getD_eq_getD_getElem?, Array.getElem?_push]
  split <;> simp

theorem getD_modify (items : Array α) (f : α → α) (fallback : α) {i : Nat} (j : Nat)
    (bound : i < items.size) :
    (items.modify i f).getD j fallback =
      if j = i then f (items.getD i fallback) else items.getD j fallback := by
  simp only [Array.getD_eq_getD_getElem?, Array.getElem?_modify]
  by_cases same : i = j
  · subst same
    simp [bound]
  · simp [same, Ne.symm same]

end Arrays

section Scopes

variable {W₀ W W' : World} {image : Image} {owed : Address → Prop} {b : Nat} {layout : Layout}

theorem World.Grows.scopeOk (grows : W.Grows W') {scope : Scope}
    (ok : W.ScopeOk W.scopes b layout scope) :
    W'.ScopeOk W'.scopes b layout scope := by
  refine ⟨fun name kind listed => ?_, ok.acceptor, fun name held value listed token bound =>
    grows.isVector (ok.token name held value listed token bound),
    fun name value bound unlisted free => grows.has (ok.hidden name value bound unlisted free)⟩
  rcases ok.found name kind listed with ⟨value, held, has⟩ |
    ⟨absent, p, outer, parent, lower, found, known⟩
  · exact .inl ⟨value, held, grows.has has⟩
  · obtain ⟨wider, foundWider, included⟩ := grows.scopes p outer found
    exact .inr ⟨absent, p, wider, parent, lower, foundWider, included name kind known⟩

theorem World.DescribesBut.scope_bound (describes : W.DescribesBut owed image)
    (found : W.scopes[b]? = some layout) :
    b < image.heap.scopes.size := by
  rw [← describes.scopeCount]
  exact (List.getElem?_eq_some_iff.mp found).1

/-- The variable that a look-up from a scope finds, and the scope it is in. -/
theorem World.DescribesBut.find_variable (describes : W.DescribesBut owed image) {name : String}
    {kind : Kind} (found : W.scopes[b]? = some layout) (listed : layout name = some kind)
    (limit : Nat) (enough : b < limit) :
    ∃ value, image.heap.findVariableWithin name limit b = some value ∧ W.Has kind value ∧
      ∃ (owner : Nat) (outer : Layout),
        image.heap.findScopeWithin (·.vars.contains name) limit b = some owner ∧
          W.scopes[owner]? = some outer ∧ outer name = some kind ∧
            (image.heap.scope owner).vars[name]? = some value := by
  induction limit generalizing b layout with
  | zero => omega
  | succ limit ih =>
      have ok := describes.scopes b layout found
      rcases ok.found name kind listed with ⟨value, held, has⟩ |
        ⟨absent, parent, outer, parent_eq, lower, foundOuter, listedOuter⟩
      · change (image.heap.scope b).vars[name]? = some value at held
        have contains : (image.heap.scope b).vars.contains name = true := by
          rw [Std.TreeMap.contains_eq_isSome_getElem?, held]
          rfl
        refine ⟨value, ?_, has, b, layout, ?_, found, listed, held⟩
        · simp [Heap.findVariableWithin, held]
        · simp [Heap.findScopeWithin, contains]
      · change (image.heap.scope b).vars[name]? = none at absent
        change (image.heap.scope b).parent = some parent at parent_eq
        have missing : (image.heap.scope b).vars.contains name = false := by
          rw [Std.TreeMap.contains_eq_isSome_getElem?, absent]
          rfl
        obtain ⟨value, lookup, has, owner, ownerLayout, search, rest⟩ :=
          ih foundOuter listedOuter (by omega)
        refine ⟨value, ?_, has, owner, ownerLayout, ?_, rest⟩
        · simp [Heap.findVariableWithin, absent, parent_eq, lookup]
        · simp [Heap.findScopeWithin, missing, parent_eq, search]

/-- A variable that a frame knows has a value of its kind. -/
theorem World.DescribesBut.lookup (describes : W.DescribesBut owed image) {frame : Frame}
    {name : String} {kind : Kind} (admits : W.Admits frame b)
    (known : frame.kinds name = some kind) :
    ∃ value, image.heap.lookupVariable? b name = some value ∧ W.Has kind value ∧
      ∃ (owner : Nat) (outer : Layout), image.heap.variableScope? b name = some owner ∧
        W.scopes[owner]? = some outer ∧ outer name = some kind ∧
          (image.heap.scope owner).vars[name]? = some value := by
  obtain ⟨layout, found, included⟩ := admits
  exact describes.find_variable found (included name kind known) _ (describes.scope_bound found)

/-- A new scope. -/
theorem World.DescribesBut.allocScope (describes : W.DescribesBut owed image) {scope : Scope}
    (ok : W.ScopeOk W.scopes W.scopes.length layout scope) :
    World.DescribesBut { W with scopes := W.scopes ++ [layout] } owed
      { image with heap := (image.heap.allocScope scope).2 } := by
  have extends_ : W.Extends { W with scopes := W.scopes ++ [layout] } :=
    ⟨List.prefix_append _ _, List.prefix_refl _, Nat.le_refl _, Nat.le_refl _⟩
  have grows := extends_.grows
  refine ⟨?_, describes.vectorCount, describes.functionCount, describes.transferCount,
    grows.cellsOk describes.cells, grows.bundlesOk describes.bundles,
    grows.vectorsOk describes.vectors, grows.functionsOk describes.functions,
    grows.transfersOk describes.transfers, ?_, grows.symbolsOk describes.symbols⟩
  · simp [Heap.allocScope, describes.scopeCount]
  · intro d other found
    simp only [Heap.allocScope, getD_push, ← describes.scopeCount]
    by_cases new : d = W.scopes.length
    · subst new
      simp only [List.getElem?_concat_length, Option.some.injEq] at found
      subst found
      simp only [if_true]
      exact grows.scopeOk ok
    · have bound : d < W.scopes.length := by
        have := (List.getElem?_eq_some_iff.mp found).1
        simp only [List.length_append, List.length_singleton] at this
        omega
      rw [List.getElem?_append_left bound] at found
      rw [if_neg new]
      exact grows.scopeOk (describes.scopes d other found)

theorem Follows.allocScope (describes : W.DescribesBut owed image) (layout : Layout)
    (scope : Scope) :
    Follows W image { W with scopes := W.scopes ++ [layout] }
      { image with heap := (image.heap.allocScope scope).2 } := by
  have extends_ : W.Extends { W with scopes := W.scopes ++ [layout] } :=
    ⟨List.prefix_append _ _, List.prefix_refl _, Nat.le_refl _, Nat.le_refl _⟩
  refine ⟨extends_, extends_.grows, fun d other found => ?_, fun _ _ => rfl⟩
  have older : d ≠ image.heap.scopes.size := Nat.ne_of_lt (describes.scope_bound found)
  have same : (image.heap.allocScope scope).2.scope d = image.heap.scope d := by
    simp only [Heap.allocScope, Heap.scope, getD_push, if_neg older]
  rw [same]
  exact ScopeKept.refl other _

theorem bindVariable_scope (heap : Heap) (name : String) (value : Value) (d : Nat)
    (bound : b < heap.scopes.size) :
    (heap.bindVariable b name value).scope d =
      if d = b then { heap.scope b with vars := (heap.scope b).vars.insert name value }
      else heap.scope d := by
  simp only [Heap.bindVariable, Heap.scope, getD_modify _ _ _ _ bound]

/-- A new value for a variable that is not fixed, or a variable that becomes known. -/
theorem Leads.bindVariable {name : String} {value : Value} (grows : W.Grows W')
    (bound : b < image.heap.scopes.size)
    (free : ∀ (layout : Layout) kind, W.scopes[b]? = some layout → layout name = some kind →
      ¬ kind.IsFixed) :
    Leads W image W' { image with heap := image.heap.bindVariable b name value } := by
  refine ⟨grows, fun d layout found => ?_, fun _ _ => rfl⟩
  rw [bindVariable_scope image.heap name value d bound]
  by_cases same : d = b
  · subst same
    rw [if_pos rfl]
    refine ⟨rfl, rfl, fun other known => ?_, fun other kind listed fixed => ?_⟩
    · rw [Std.TreeMap.contains_insert, known, Bool.or_true]
    · have different : ¬ compare name other = .eq := by
        rw [Std.LawfulEqCmp.compare_eq_iff_eq]
        rintro rfl
        exact free layout kind found listed fixed
      rw [Std.TreeMap.getElem?_insert, if_neg different]
  · rw [if_neg same]
    exact ScopeKept.refl layout _

/-- A change of one scope's variables. -/
theorem World.DescribesBut.bindVariable (describes : W.DescribesBut owed image) {name : String}
    {value : Value} (grows : W.Grows W') (same : W'.vectors = W.vectors)
    (sameFunctions : W'.functions = W.functions) (sameTransfers : W'.transfers = W.transfers)
    (bound : b < image.heap.scopes.size)
    (count : W'.scopes.length = W.scopes.length)
    (others : ∀ d, d ≠ b → W'.scopes[d]? = W.scopes[d]?)
    (ok : ∀ layout, W'.scopes[b]? = some layout → W'.ScopeOk W'.scopes b layout
      { image.heap.scope b with vars := (image.heap.scope b).vars.insert name value }) :
    W'.DescribesBut owed { image with heap := image.heap.bindVariable b name value } := by
  refine ⟨?_, ?_, ?_, ?_, grows.cellsOk describes.cells, grows.bundlesOk describes.bundles, ?_,
    grows.functionsOk describes.functions, grows.transfersOk describes.transfers, ?_,
    grows.symbolsOk describes.symbols⟩
  · rw [count, describes.scopeCount]
    simp [Heap.bindVariable]
  · rw [same, describes.vectorCount]
    rfl
  · rw [sameFunctions, describes.functionCount]
    rfl
  · rw [sameTransfers, describes.transferCount]
    rfl
  · rw [same]
    exact grows.vectorsOk describes.vectors
  · intro d other found
    change W'.ScopeOk W'.scopes d other ((image.heap.bindVariable b name value).scope d)
    rw [bindVariable_scope image.heap name value d bound]
    by_cases here : d = b
    · subst here
      rw [if_pos rfl]
      exact ok other found
    · rw [others d here] at found
      rw [if_neg here]
      exact grows.scopeOk (describes.scopes d other found)

/-- The variables of a scope with one more, or a new value for one. -/
theorem World.ScopeOk.insert {scope : Scope} {name : String} {value : Value}
    (ok : W.ScopeOk W.scopes b layout scope)
    (has : ∀ kind, layout name = some kind → W.Has kind value)
    (acceptor : name = "values" → ∃ manyValues, value = acceptorValue manyValues)
    (token : ∀ held, layout name = some held → held.IsToken →
      W.IsVector (.token held b name) value)
    (hidden : layout name = none → name ∉ reservedNames → W.Has .optional value) :
    W.ScopeOk W.scopes b layout { scope with vars := scope.vars.insert name value } := by
  refine ⟨fun other kind listed => ?_, fun held found => ?_, fun other held item listed isToken
    found => ?_, fun other item found unlisted free => ?_⟩
  · simp only [Std.TreeMap.getElem?_insert, Std.LawfulEqCmp.compare_eq_iff_eq]
    by_cases same : name = other
    · subst same
      rw [if_pos rfl]
      exact .inl ⟨value, rfl, has kind listed⟩
    · rw [if_neg same]
      exact ok.found other kind listed
  · simp only [Std.TreeMap.getElem?_insert, Std.LawfulEqCmp.compare_eq_iff_eq] at found
    by_cases same : name = "values"
    · rw [if_pos same] at found
      obtain rfl := Option.some.inj found
      exact acceptor same
    · rw [if_neg same] at found
      exact ok.acceptor held found
  · simp only [Std.TreeMap.getElem?_insert, Std.LawfulEqCmp.compare_eq_iff_eq] at found
    by_cases same : name = other
    · subst same
      rw [if_pos rfl] at found
      obtain rfl := Option.some.inj found
      exact token held listed isToken
    · rw [if_neg same] at found
      exact ok.token other held item listed isToken found
  · simp only [Std.TreeMap.getElem?_insert, Std.LawfulEqCmp.compare_eq_iff_eq] at found
    by_cases same : name = other
    · subst same
      rw [if_pos rfl] at found
      obtain rfl := Option.some.inj found
      exact hidden unlisted free
    · rw [if_neg same] at found
      exact ok.hidden other item found unlisted free

/-- A new value for a variable, or a variable that no frame knows of. -/
theorem World.DescribesBut.assign (describes : W.DescribesBut owed image) {name : String}
    {value : Value} (found : W.scopes[b]? = some layout)
    (has : ∀ kind, layout name = some kind → W.Has kind value)
    (acceptor : name = "values" → ∃ manyValues, value = acceptorValue manyValues)
    (plain : ∀ held, layout name = some held → ¬ held.IsToken)
    (hidden : layout name = none → name ∉ reservedNames → W.Has .optional value) :
    W.DescribesBut owed { image with heap := image.heap.bindVariable b name value } := by
  refine describes.bindVariable (World.Grows.refl W) rfl rfl rfl (describes.scope_bound found) rfl
    (fun _ _ => rfl) ?_
  intro other foundOther
  rw [found] at foundOther
  obtain rfl := Option.some.inj foundOther
  exact (describes.scopes b layout found).insert has acceptor (fun held listed isToken =>
    absurd isToken (plain held listed)) hidden

/-- The world in which a scope has one more variable. -/
def World.bindAt (W : World) (b : Nat) (name : String) (kind : Kind) : World :=
  { W with scopes := W.scopes.modify b fun layout => Layout.bind layout name kind }

theorem World.bindAt_scopes (W : World) (b : Nat) (name : String) (kind : Kind) (d : Nat) :
    (W.bindAt b name kind).scopes[d]? = if d = b then
      W.scopes[d]?.map (fun layout => Layout.bind layout name kind) else W.scopes[d]? := by
  simp only [World.bindAt, List.getElem?_modify]
  by_cases same : d = b
  · simp [same]
  · simp [same, Ne.symm same]

theorem World.grows_bindAt {name : String} {kind : Kind} (found : W.scopes[b]? = some layout)
    (fresh : layout name = none) :
    W.Grows (W.bindAt b name kind) := by
  refine ⟨?_, List.prefix_refl _, Nat.le_refl _, Nat.le_refl _⟩
  intro d other foundOther
  rw [World.bindAt_scopes]
  by_cases same : d = b
  · subst same
    rw [found] at foundOther
    obtain rfl := Option.some.inj foundOther
    refine ⟨_, by rw [if_pos rfl, found]; rfl, fun known held listed => ?_⟩
    have different : known ≠ name := by
      rintro rfl
      rw [fresh] at listed
      contradiction
    change layout.bind name kind known = some held
    rw [Layout.bind_of_ne _ _ different]
    exact listed
  · exact ⟨other, by rw [if_neg same, foundOther], fun _ _ listed => listed⟩

/-- A variable that becomes known. -/
theorem World.DescribesBut.bindFresh (describes : W.DescribesBut owed image) {name : String}
    {kind : Kind} {value : Value} (found : W.scopes[b]? = some layout) (fresh : layout name = none)
    (has : W.Has kind value)
    (acceptor : name = "values" → ∃ manyValues, value = acceptorValue manyValues)
    (token : kind.IsToken → W.IsVector (.token kind b name) value) :
    (W.bindAt b name kind).DescribesBut owed
      { image with heap := image.heap.bindVariable b name value } := by
  have grows : W.Grows (W.bindAt b name kind) := World.grows_bindAt found fresh
  refine describes.bindVariable grows rfl rfl rfl (describes.scope_bound found)
    (by simp [World.bindAt]) (fun d different => by rw [World.bindAt_scopes, if_neg different]) ?_
  intro other foundOther
  rw [World.bindAt_scopes, if_pos rfl, found] at foundOther
  obtain rfl := Option.some.inj foundOther
  have ok := grows.scopeOk (describes.scopes b layout found)
  refine ⟨fun known held listed => ?_, fun bound foundValue => ?_, fun known held item listed
    isToken foundItem => ?_, fun known item foundItem unlisted free => ?_⟩
  · simp only [Std.TreeMap.getElem?_insert, Std.LawfulEqCmp.compare_eq_iff_eq]
    by_cases same : name = known
    · subst same
      change layout.bind name kind name = some held at listed
      rw [Layout.bind_self, Option.some.injEq] at listed
      subst listed
      rw [if_pos rfl]
      exact .inl ⟨value, rfl, grows.has has⟩
    · change layout.bind name kind known = some held at listed
      rw [Layout.bind_of_ne _ _ (Ne.symm same)] at listed
      rw [if_neg same]
      exact ok.found known held listed
  · simp only [Std.TreeMap.getElem?_insert, Std.LawfulEqCmp.compare_eq_iff_eq] at foundValue
    by_cases same : name = "values"
    · rw [if_pos same] at foundValue
      obtain rfl := Option.some.inj foundValue
      exact acceptor same
    · rw [if_neg same] at foundValue
      exact ok.acceptor bound foundValue
  · simp only [Std.TreeMap.getElem?_insert, Std.LawfulEqCmp.compare_eq_iff_eq] at foundItem
    change layout.bind name kind known = some held at listed
    by_cases same : name = known
    · subst same
      rw [Layout.bind_self, Option.some.injEq] at listed
      subst listed
      rw [if_pos rfl, Option.some.injEq] at foundItem
      subst foundItem
      exact grows.isVector (token isToken)
    · rw [Layout.bind_of_ne _ _ (Ne.symm same)] at listed
      rw [if_neg same] at foundItem
      exact ok.token known held item listed isToken foundItem
  · simp only [Std.TreeMap.getElem?_insert, Std.LawfulEqCmp.compare_eq_iff_eq] at foundItem
    change layout.bind name kind known = none at unlisted
    by_cases same : name = known
    · subst same
      rw [Layout.bind_self] at unlisted
      contradiction
    · rw [Layout.bind_of_ne _ _ (Ne.symm same)] at unlisted
      rw [if_neg same] at foundItem
      exact ok.hidden known item foundItem unlisted free

/-- A variable that has a value becomes known. -/
theorem World.DescribesBut.recognise (describes : W.DescribesBut owed image) {name : String}
    {kind : Kind} {value : Value} (found : W.scopes[b]? = some layout) (fresh : layout name = none)
    (held : (image.heap.scope b).vars[name]? = some value) (has : W.Has kind value)
    (plain : ¬ kind.IsToken) :
    (W.bindAt b name kind).DescribesBut owed image := by
  have grows : W.Grows (W.bindAt b name kind) := World.grows_bindAt found fresh
  refine ⟨by simpa [World.bindAt] using describes.scopeCount, describes.vectorCount,
    describes.functionCount, describes.transferCount, grows.cellsOk describes.cells,
    grows.bundlesOk describes.bundles, grows.vectorsOk describes.vectors,
    grows.functionsOk describes.functions, grows.transfersOk describes.transfers, ?_,
    grows.symbolsOk describes.symbols⟩
  intro d other foundOther
  by_cases here : d = b
  · subst here
    rw [World.bindAt_scopes, if_pos rfl, found] at foundOther
    obtain rfl := Option.some.inj foundOther
    have ok := grows.scopeOk (describes.scopes d layout found)
    refine ⟨fun known kind' listed => ?_, ok.acceptor, fun known kind' item listed isToken
      foundItem => ?_, fun known item foundItem unlisted free => ?_⟩
    · change layout.bind name kind known = some kind' at listed
      by_cases same : known = name
      · subst same
        rw [Layout.bind_self, Option.some.injEq] at listed
        subst listed
        exact .inl ⟨value, held, grows.has has⟩
      · rw [Layout.bind_of_ne _ _ same] at listed
        exact ok.found known kind' listed
    · change layout.bind name kind known = some kind' at listed
      by_cases same : known = name
      · subst same
        rw [Layout.bind_self, Option.some.injEq] at listed
        exact absurd (listed ▸ isToken) plain
      · rw [Layout.bind_of_ne _ _ same] at listed
        exact ok.token known kind' item listed isToken foundItem
    · change layout.bind name kind known = none at unlisted
      by_cases same : known = name
      · subst same
        rw [Layout.bind_self] at unlisted
        contradiction
      · rw [Layout.bind_of_ne _ _ same] at unlisted
        exact ok.hidden known item foundItem unlisted free
  · rw [World.bindAt_scopes, if_neg here] at foundOther
    exact grows.scopeOk (describes.scopes d other foundOther)

/-- The layout of a scope may change where an earlier world does not know the scope. -/
theorem World.Extends.bindAt (extends_ : W₀.Extends W) (name : String) (kind : Kind)
    (own : W₀.scopes.length ≤ b) :
    W₀.Extends (W.bindAt b name kind) := by
  refine ⟨?_, extends_.vectors, extends_.functions, extends_.transfers⟩
  obtain ⟨rest, scopes_eq⟩ := extends_.scopes
  simp only [World.bindAt, ← scopes_eq]
  rw [List.prefix_iff_getElem?]
  intro i bound
  have different : b ≠ i := by omega
  simp [different, List.getElem?_append_left bound]

end Scopes

end LispScript.Discipline
