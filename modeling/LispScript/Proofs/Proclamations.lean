import LispScript.Proofs.Growth
import LispScript.Proofs.Hoisting

/-!
What lasts while forms are compiled, whatever they are: a variable that was proclaimed special stays
special, and the script variable of a literal stays the same until the unit ends.
-/

namespace LispScript.Compiler

open Script Discipline

variable {bindings : Bindings} {id : SymbolId} {s t : CompileState}

/-- A variable is proclaimed special. -/
def Bindings.Proclaims (bindings : Bindings) (id : SymbolId) : Prop :=
  ∃ binding, bindings.getGlobal? id .vars = some binding ∧
    (bindings.declared binding).special = true

/-- What was proclaimed special stays so, and literals keep their variables. -/
structure Lasts (s t : CompileState) : Prop where
  proclaimed : ∀ id, s.bindings.Proclaims id → t.bindings.Proclaims id
  names : ∀ (key : Nat) name, s.literals.names[key]? = some name → t.literals.names[key]? = some name

theorem Lasts.same (bindings : t.bindings = s.bindings) (literals : t.literals = s.literals) :
    Lasts s t :=
  ⟨fun _ proclaimed => bindings ▸ proclaimed, fun _ _ held => literals ▸ held⟩

theorem Lasts.proclaiming (literals : t.literals = s.literals)
    (proclaimed : ∀ id, s.bindings.Proclaims id → t.bindings.Proclaims id) : Lasts s t :=
  ⟨proclaimed, fun _ _ held => literals ▸ held⟩

theorem declared_bindWith {binding : Binding} (special : (bindings.declared binding).special = true)
    (name : Value) (space : Namespace) (reference : Reference) (declarations : Declarations) :
    ((bindings.bindWith name space reference declarations).2.declared binding).special = true := by
  rw [Bindings.declared, Bindings.bindWith, getD_push]
  split
  · rename_i outside
    rw [Bindings.declared, outside, Array.getD_eq_getD_getElem?,
      Array.getElem?_eq_none (Nat.le_refl _)] at special
    cases special
  · exact special

theorem Bindings.Proclaims.bindWith (proclaims : bindings.Proclaims id) (name : Value)
    (space : Namespace) (reference : Reference) (declarations : Declarations) :
    (bindings.bindWith name space reference declarations).2.Proclaims id := by
  obtain ⟨binding, found, special⟩ := proclaims
  exact ⟨binding, found, declared_bindWith special name space reference declarations⟩

theorem Bindings.Proclaims.updateDeclared (proclaims : bindings.Proclaims id) (changed : Binding)
    {f : Declarations → Declarations} (kept : ∀ d, d.special = true → (f d).special = true) :
    (bindings.updateDeclared changed f).Proclaims id := by
  obtain ⟨binding, found, special⟩ := proclaims
  refine ⟨binding, found, ?_⟩
  rw [declared, Array.getD_eq_getD_getElem?] at special
  rw [declared, Bindings.updateDeclared, Array.getD_eq_getD_getElem?, Array.getElem?_modify]
  split
  · cases held : bindings.declarations[binding.declarations]? with
    | none =>
        rw [held] at special
        cases special
    | some d =>
        rw [held] at special
        exact kept d special
  · exact special

/-- A global binding that takes the place of a special one is special. -/
theorem Bindings.Proclaims.bindGlobal (proclaims : bindings.Proclaims id) (other : SymbolId)
    (space : Namespace) (reference : Reference) {declarations : Declarations}
    (kept : ∀ old, bindings.getGlobal? other space = some old →
      (bindings.declared old).special = true → declarations.special = true) :
    let bound := bindings.bindWith (.ofSymbol other) space reference declarations
    (bound.2.putGlobal other space bound.1).Proclaims id := by
  intro bound
  obtain ⟨held, found, special⟩ := proclaims
  rw [Proclaims, getGlobal?, Bindings.putGlobal, Std.TreeMap.getElem?_insert]
  split
  · rename_i same
    have same : globalKey other space = globalKey id .vars := compare_eq_iff_eq.mp same
    have declared : (bound.2.declared bound.1) = declarations := by
      change (bindings.declarations.push declarations).getD bindings.declarations.size {} = _
      rw [getD_push, if_pos rfl]
    refine ⟨bound.1, rfl, ?_⟩
    change (bound.2.declared bound.1).special = true
    rw [declared]
    exact kept held (by rwa [getGlobal?, same]) special
  · exact ⟨held, found, declared_bindWith special (.ofSymbol other) space reference declarations⟩

theorem Bindings.Proclaims.define (proclaims : bindings.Proclaims id) (other : SymbolId)
    (space : Namespace) (reference : Reference) :
    (bindings.define other space reference).2.Proclaims id := by
  refine proclaims.bindGlobal other space reference fun old found special => ?_
  rw [found]
  exact special

theorem Bindings.Proclaims.lookupGlobal (proclaims : bindings.Proclaims id) (other : SymbolId)
    (space : Namespace) :
    (bindings.lookupGlobal other space).2.Proclaims id := by
  rw [Bindings.lookupGlobal]
  split
  · exact proclaims
  · rename_i missing
    refine proclaims.bindGlobal other space .slot fun old found _ => ?_
    rw [missing] at found
    cases found

theorem hoist_lasts (key : LiteralKey) {make : Compile Expr} (made : Obeys Lasts make) :
    Obeys Lasts (hoist key make) := by
  intro s
  have before := made s
  cases found : s.literals.names[key.code]? with
  | some name =>
      rw [stateAfter_ok (hoist_found make found)]
      exact .same rfl rfl
  | none =>
      unfold stateAfter at before ⊢
      cases ended : make s with
      | error e t =>
          rw [ended] at before
          rw [hoist_failed found ended]
          exact before
      | ok code t =>
          rw [ended] at before
          rw [hoist_absent found ended]
          by_cases stuck : next t.counters.literals = t.counters.literals
          · rw [if_pos stuck]
            exact before
          · rw [if_neg stuck]
            refine ⟨before.proclaimed, fun other name held => ?_⟩
            have inserted : (addLiteral key code t).literals.names[other]? =
                if key.code = other then some (literalName (next t.counters.literals))
                else t.literals.names[other]? := by
              simp only [addLiteral, Std.TreeMap.getElem?_insert, compare_eq_iff_eq]
            refine inserted.trans ?_
            rw [if_neg, before.names other name held]
            rintro rfl
            rw [found] at held
            cases held

instance : Interning Lasts where
  refl _ := .same rfl rfl
  trans first second := ⟨fun id held => second.proclaimed id (first.proclaimed id held),
    fun key name held => second.names key name (first.names key name held)⟩
  keyword _ _ := .same rfl rfl

theorem symbolLiteral_lasts (id : SymbolId) : Obeys Lasts (symbolLiteral id) := by
  unfold symbolLiteral
  split
  · exact .pure _
  · split
    · exact .pure _
    · exact hoist_lasts _ (.bind .symbols fun _ => .pure _)

instance : Unrestricted Lasts where
  counters _ _ _ := .same rfl rfl
  symbolLiteral := symbolLiteral_lasts
  literalWithin depth value := by
    induction depth generalizing value with
    | zero => exact .throw _
    | succ depth ih =>
        unfold Compiler.literalWithin
        split
        · exact .pure _
        · exact .pure _
        · exact .pure _
        · exact symbolLiteral_lasts _
        · exact hoist_lasts _ (.pure _)
        · exact hoist_lasts _
            (.bind .heap fun _ => .bind (ih _) fun _ => .bind (ih _) fun _ => .pure _)
        · exact hoist_lasts _ (.bind .heap fun _ => .bind (.mapM _ ih) fun _ => .pure _)
        · exact .bind (.describe _) fun _ => .throw _
  unit inside := ⟨inside.proclaimed, fun _ _ held => held⟩
  cells _ _ := .same rfl rfl
  bind s name space reference declarations := Lasts.proclaiming rfl fun _ proclaims =>
    proclaims.bindWith name space reference declarations
  used s _ := Lasts.proclaiming rfl fun _ proclaims => proclaims.updateDeclared _ fun _ special => special
  global s _ _ := Lasts.proclaiming rfl fun _ proclaims => proclaims.lookupGlobal ..
  image _ _ _ := .same rfl rfl
  expander s _ _ := Lasts.proclaiming rfl fun _ proclaims => proclaims.define ..
  proclaim s _ _ _ kept _ := Lasts.proclaiming rfl fun _ proclaims =>
    (proclaims.lookupGlobal ..).updateDeclared _ kept
  constant s _ _ := Lasts.proclaiming rfl fun _ proclaims =>
    (proclaims.define ..).updateDeclared _ fun _ special => special

end LispScript.Compiler
