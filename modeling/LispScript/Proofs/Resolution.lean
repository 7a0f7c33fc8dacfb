import LispScript.Proofs.Building

/-!
What names mean stays in order: bindings refer to declarations that exist, what they mean is data
where it is a value, and no binding that was used becomes unused.
-/

namespace LispScript.Discipline

open Script Machine Compiler

section Bindings

variable {bindings bindings' bindings'' : Bindings}

/-- Later bindings. -/
structure Keeps (bindings bindings' : Bindings) : Prop where
  declarations : bindings.declarations.size ≤ bindings'.declarations.size
  used : ∀ binding, (bindings.declared binding).used = true →
    (bindings'.declared binding).used = true

theorem Keeps.refl (bindings : Bindings) : Keeps bindings bindings :=
  ⟨Nat.le_refl _, fun _ used => used⟩

/-- The declarations of a binding that is there. -/
theorem declared_push (bindings : Bindings) (name : Value) (space : Namespace)
    (reference : Reference) (declarations : Declarations) :
    (bindings.bindWith name space reference declarations).2.declared
      (bindings.bindWith name space reference declarations).1 = declarations := by
  simp [Bindings.bindWith, Bindings.declared]

theorem Keeps.bindWith (bindings : Bindings) (name : Value) (space : Namespace)
    (reference : Reference) (declarations : Declarations) :
    Keeps bindings (bindings.bindWith name space reference declarations).2 := by
  refine ⟨by simp [Bindings.bindWith], fun binding used => ?_⟩
  simp only [Bindings.declared, Bindings.bindWith, Array.getD_eq_getD_getElem?,
    Array.getElem?_push] at used ⊢
  split
  · rename_i last
    rw [Array.getElem?_eq_none (Nat.le_of_eq last.symm)] at used
    simp at used
  · exact used

theorem declared_updateDeclared (bindings : Bindings) (binding other : Binding)
    (f : Declarations → Declarations) :
    (bindings.updateDeclared binding f).declared other = bindings.declared other ∨
      (bindings.updateDeclared binding f).declared other = f (bindings.declared other) := by
  simp only [Bindings.declared, Bindings.updateDeclared, Array.getD_eq_getD_getElem?,
    Array.getElem?_modify]
  split
  · cases bindings.declarations[other.declarations]? with
    | none => exact .inl rfl
    | some found => exact .inr rfl
  · exact .inl rfl

theorem Keeps.updateDeclared (bindings : Bindings) (binding : Binding)
    {f : Declarations → Declarations} (kept : ∀ d : Declarations, d.used = true → (f d).used = true) :
    Keeps bindings (bindings.updateDeclared binding f) := by
  refine ⟨by simp [Bindings.updateDeclared], fun other used => ?_⟩
  rcases declared_updateDeclared bindings binding other f with same | changed
  · rw [same]
    exact used
  · rw [changed]
    exact kept _ used

theorem markUsed_declared {binding : Binding}
    (known : binding.declarations < bindings.declarations.size) :
    ((bindings.markUsed binding).declared binding).used = true := by
  simp only [Bindings.markUsed, Bindings.declared, Bindings.updateDeclared,
    Array.getD_eq_getD_getElem?, Array.getElem?_modify, if_pos]
  rw [Array.getElem?_eq_getElem known]
  rfl

end Bindings

section Globals

variable {W : World} {s : CompileState}

/-- The global bindings are in order. -/
def GlobalsOk (W : World) (s : CompileState) : Prop :=
  ∀ (key : Nat) binding, s.bindings.globals[key]? = some binding →
    BindingOk W s binding ∧ IsGlobal binding.reference

/-- Other bindings. -/
theorem CompilerOk.withBindings (ok : CompilerOk W s) {bindings : Bindings}
    (keeps : Keeps s.bindings bindings) (globals : GlobalsOk W { s with bindings }) :
    Further W s W { s with bindings } ∧ CompilerOk W { s with bindings } :=
  ⟨⟨World.Extends.refl W, Counters.Leads.refl _, keeps.declarations, keeps.used,
      fun _ member => member⟩,
    ok.describes, ok.someScope, ok.bounded, globals, ok.literals⟩

/-- Global bindings that are no others than before. -/
theorem GlobalsOk.keep (ok : GlobalsOk W s) {bindings : Bindings}
    (keeps : Keeps s.bindings bindings) (same : bindings.globals = s.bindings.globals) :
    GlobalsOk W { s with bindings } := by
  intro key binding found
  rw [show ({ s with bindings } : CompileState).bindings.globals = s.bindings.globals from same]
    at found
  obtain ⟨known, isGlobal⟩ := ok key binding found
  exact ⟨⟨Nat.lt_of_lt_of_le known.known keeps.declarations, known.reference⟩, isGlobal⟩

theorem GlobalsOk.put (ok : GlobalsOk W s) {binding : Binding} (known : BindingOk W s binding)
    (isGlobal : IsGlobal binding.reference) (name : SymbolId) (space : Namespace) :
    GlobalsOk W { s with bindings := s.bindings.putGlobal name space binding } := by
  intro key other found
  simp only [Bindings.putGlobal, Std.TreeMap.getElem?_insert] at found
  split at found
  · obtain rfl := Option.some.inj found
    exact ⟨⟨known.known, known.reference⟩, isGlobal⟩
  · obtain ⟨knownOther, isGlobalOther⟩ := ok key other found
    exact ⟨⟨knownOther.known, knownOther.reference⟩, isGlobalOther⟩

theorem Built.onBindings {f : Bindings → α × Bindings}
    {post : World → CompileState → α → Prop} (ok : CompilerOk W s)
    (keeps : Keeps s.bindings (f s.bindings).2)
    (globals : GlobalsOk W { s with bindings := (f s.bindings).2 })
    (held : post W { s with bindings := (f s.bindings).2 } (f s.bindings).1) :
    Built W s (Compiler.onBindings f) post := by
  obtain ⟨further, ok'⟩ := ok.withBindings keeps globals
  exact .ok W further ok' held

theorem Built.modifyBindings {f : Bindings → Bindings} {post : World → CompileState → Unit → Prop}
    (ok : CompilerOk W s) (keeps : Keeps s.bindings (f s.bindings))
    (same : (f s.bindings).globals = s.bindings.globals)
    (held : post W { s with bindings := f s.bindings } ()) :
    Built W s (Compiler.modifyBindings f) post := by
  obtain ⟨further, ok'⟩ := ok.withBindings keeps (GlobalsOk.keep ok.globals keeps same)
  exact .ok W further ok' held

end Globals

section Steps

variable {W : World} {s : CompileState}

/-- A new binding, which nothing uses yet. -/
structure NewBinding (W : World) (space : Namespace) (reference : Reference) (s : CompileState)
    (binding : Binding) : Prop where
  ok : BindingOk W s binding
  space_eq : binding.space = space
  reference_eq : binding.reference = reference
  unused : (s.bindings.declared binding).used = false

theorem bindWith_new {name : Value} {space : Namespace} {reference : Reference}
    {declarations : Declarations} (known : ReferenceOk W reference)
    (unused : declarations.used = false) :
    NewBinding W space reference
      { s with bindings := (s.bindings.bindWith name space reference declarations).2 }
      (s.bindings.bindWith name space reference declarations).1 := by
  refine ⟨⟨by simp [Bindings.bindWith], known⟩, rfl, rfl, ?_⟩
  rw [declared_push]
  exact unused

theorem Built.bindWith (ok : CompilerOk W s) (name : Value) (space : Namespace)
    {reference : Reference} {declarations : Declarations} (known : ReferenceOk W reference)
    (unused : declarations.used = false) :
    Built W s (Compiler.onBindings (·.bindWith name space reference declarations))
      fun W' s' => NewBinding W' space reference s' :=
  Built.onBindings ok (Keeps.bindWith _ _ _ _ _)
    (GlobalsOk.keep ok.globals (Keeps.bindWith _ _ _ _ _) rfl) (bindWith_new known unused)

theorem Built.newBinding (ok : CompilerOk W s) (name : Value) (space : Namespace)
    {reference : Reference} (known : ReferenceOk W reference) :
    Built W s (Compiler.newBinding name space reference)
      fun W' s' => NewBinding W' space reference s' :=
  Built.bindWith ok name space known rfl

/-- A copy of a binding, with declarations of its own. -/
theorem Built.shadow (ok : CompilerOk W s) {binding : Binding} (known : BindingOk W s binding) :
    Built W s (Compiler.onBindings (·.shadow binding))
      fun W' s' => NewBinding W' binding.space binding.reference s' := by
  refine Built.onBindings ok (Keeps.bindWith _ _ _ _ _)
    (GlobalsOk.keep ok.globals (Keeps.bindWith _ _ _ _ _) rfl) ?_
  exact bindWith_new known.reference rfl

theorem Built.updateDeclared (ok : CompilerOk W s) (binding : Binding)
    {f : Declarations → Declarations}
    (kept : ∀ d : Declarations, d.used = true → (f d).used = true) :
    Built W s (Compiler.modifyBindings (·.updateDeclared binding f)) fun _ _ _ => True :=
  Built.modifyBindings ok (Keeps.updateDeclared _ _ kept) rfl trivial

/-- A binding that is used from now on. -/
theorem Built.markUsed (ok : CompilerOk W s) {binding : Binding} (known : BindingOk W s binding) :
    Built W s (Compiler.markUsed binding)
      fun _ s' _ => (s'.bindings.declared binding).used = true :=
  Built.modifyBindings ok (Keeps.updateDeclared _ _ fun _ _ => rfl) rfl
    (markUsed_declared known.known)

/-- What is known of the global binding of a name. -/
def GlobalOk (W : World) (s : CompileState) (binding : Binding) : Prop :=
  BindingOk W s binding ∧ IsGlobal binding.reference

theorem Built.lookupGlobal (ok : CompilerOk W s) (name : SymbolId) (space : Namespace) :
    Built W s (Compiler.onBindings (·.lookupGlobal name space))
      fun W' s' => GlobalOk W' s' := by
  cases found : s.bindings.getGlobal? name space with
  | some binding =>
      have same : s.bindings.lookupGlobal name space = (binding, s.bindings) := by
        rw [Bindings.lookupGlobal, found]
      refine Built.onBindings ok ?_ ?_ ?_
      all_goals rw [same]
      · exact Keeps.refl _
      · exact ok.globals
      · exact ok.globals _ binding found
  | none =>
      have made : NewBinding W space .slot
          { s with bindings := (s.bindings.bindWith (.ofSymbol name) space .slot {}).2 }
          (s.bindings.bindWith (.ofSymbol name) space .slot {}).1 := bindWith_new trivial rfl
      have keeps := Keeps.bindWith s.bindings (.ofSymbol name) space .slot {}
      have same : s.bindings.lookupGlobal name space =
          ((s.bindings.bindWith (.ofSymbol name) space .slot {}).1,
            (s.bindings.bindWith (.ofSymbol name) space .slot {}).2.putGlobal name space
              (s.bindings.bindWith (.ofSymbol name) space .slot {}).1) := by
        rw [Bindings.lookupGlobal, found]
        rfl
      have isGlobal : IsGlobal (s.bindings.bindWith (.ofSymbol name) space .slot {}).1.reference :=
        trivial
      refine Built.onBindings ok ?_ ?_ ?_
      all_goals rw [same]
      · exact ⟨keeps.declarations, keeps.used⟩
      · exact GlobalsOk.put (GlobalsOk.keep ok.globals keeps rfl) made.ok isGlobal name space
      · exact ⟨⟨made.ok.known, made.ok.reference⟩, isGlobal⟩

/-- A new global binding. -/
theorem Built.define (ok : CompilerOk W s) (name : SymbolId) (space : Namespace)
    {reference : Reference} (known : ReferenceOk W reference) (isGlobal : IsGlobal reference) :
    Built W s (Compiler.onBindings (·.define name space reference)) fun _ _ _ => True := by
  obtain ⟨kept, unused, same⟩ : ∃ kept : Declarations, kept.used = false ∧
      s.bindings.define name space reference =
        ((s.bindings.bindWith (.ofSymbol name) space reference kept).1,
          (s.bindings.bindWith (.ofSymbol name) space reference kept).2.putGlobal name space
            (s.bindings.bindWith (.ofSymbol name) space reference kept).1) := by
    unfold Bindings.define
    cases s.bindings.getGlobal? name space with
    | none => exact ⟨{}, rfl, rfl⟩
    | some old => exact ⟨_, rfl, rfl⟩
  have made : NewBinding W space reference
      { s with bindings := (s.bindings.bindWith (.ofSymbol name) space reference kept).2 }
      (s.bindings.bindWith (.ofSymbol name) space reference kept).1 := bindWith_new known unused
  have keeps := Keeps.bindWith s.bindings (.ofSymbol name) space reference kept
  refine Built.onBindings ok ?_ ?_ trivial
  all_goals rw [same]
  · exact ⟨keeps.declarations, keeps.used⟩
  · exact GlobalsOk.put (GlobalsOk.keep ok.globals keeps rfl) made.ok isGlobal name space

/-- What a name resolves to. -/
structure Resolved (W : World) (s : CompileState) (env : Environment) (space : Namespace)
    (binding : Binding) : Prop where
  ok : BindingOk W s binding
  found : binding ∈ env ∧ binding.space = space ∨ IsGlobal binding.reference

theorem lookup?_found {env : Environment} {name : Value} {space : Namespace} {binding : Binding}
    (found : env.lookup? name space = some binding) :
    binding ∈ env ∧ binding.space = space := by
  have held := List.find?_some found
  simp only [Bool.and_eq_true, beq_iff_eq] at held
  exact ⟨List.mem_of_find?_eq_some found, held.1⟩

theorem Built.resolve (ok : CompilerOk W s) {context : Context} (env : EnvOk W s context.env)
    (name : Value) (space : Namespace) :
    Built W s (Compiler.resolve context name space)
      fun W' s' binding? => ∀ binding ∈ binding?, Resolved W' s' context.env space binding := by
  have stays : ∀ binding? : Option Binding,
      s.bindings.resolve context.env name space = (binding?, s.bindings) →
      (∀ binding ∈ binding?, Resolved W s context.env space binding) →
      Built W s (Compiler.resolve context name space)
        fun W' s' binding? => ∀ binding ∈ binding?, Resolved W' s' context.env space binding := by
    intro binding? same resolved
    refine Built.onBindings ok ?_ ?_ ?_
    all_goals rw [same]
    · exact Keeps.refl _
    · exact ok.globals
    · exact resolved
  have nothing : ∀ binding ∈ (none : Option Binding), Resolved W s context.env space binding :=
    fun _ member => absurd member (Option.not_mem_none _)
  cases found : context.env.lookup? name space with
  | some binding =>
      refine stays (some binding) (by simp only [Bindings.resolve, found]) ?_
      rintro _ ⟨⟩
      have found := lookup?_found found
      exact ⟨env binding found.1, .inl found⟩
  | none =>
      have globally : ∀ id, s.bindings.resolve context.env name space =
          (some (s.bindings.lookupGlobal id space).1, (s.bindings.lookupGlobal id space).2) →
          Built W s (Compiler.resolve context name space)
            fun W' s' binding? => ∀ binding ∈ binding?, Resolved W' s' context.env space binding := by
        intro id same
        change Builds W s _ (EStateM.Result.ok (s.bindings.resolve context.env name space).1
          { s with bindings := (s.bindings.resolve context.env name space).2 })
        rw [same]
        cases Built.lookupGlobal ok id space with
        | ok W' further ok' held =>
            refine .ok W' further ok' ?_
            rintro _ ⟨⟩
            exact ⟨held.1, .inr held.2⟩
      cases symbol : name.asSymbol? with
      | none =>
          refine stays none ?_ nothing
          cases space <;> simp only [Bindings.resolve, found, symbol]
      | some id =>
          cases space with
          | vars => exact globally id (by simp only [Bindings.resolve, found, symbol])
          | functions => exact globally id (by simp only [Bindings.resolve, found, symbol])
          | blocks => exact stays none (by simp only [Bindings.resolve, found]) nothing
          | tags => exact stays none (by simp only [Bindings.resolve, found]) nothing

end Steps

end LispScript.Discipline
