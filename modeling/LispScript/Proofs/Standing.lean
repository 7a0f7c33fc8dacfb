import LispScript.Proofs.SparingForms

/-!
Where a form stands, while it is compiled and while its code runs: the variables known there were made
before, so new ones are told from them; and the scope that the code opens for itself is a new one,
so nobody else changes its variables.
-/

namespace LispScript

open Script Compiler Machine Discipline

section Compilation

/-- A form that is compiled in the course of a session: the variables known where it stands were made
before. -/
structure Standing (context : Context) (s : CompileState) : Prop where
  sparing : Sparing (· = "values") s
  known : ∀ name, context.env.Hosts name → Made {} s.counters name

variable {context : Context} {s s' : CompileState} {spared : String → Prop}

/-- Names made since a form's compilation began, and the name of the variable of acceptors. -/
structure Since (s s' : CompileState) (spared : String → Prop) : Prop where
  values : spared "values"
  made : ∀ name, spared name → name = "values" ∨ Made s.counters s'.counters name

theorem Since.one (name : String) (made : Made s.counters s'.counters name) :
    Since s s' fun other => other = "values" ∨ other = name :=
  ⟨.inl rfl, fun _ which => which.imp id fun same => by rwa [same]⟩

theorem values_reserved : "values" ∈ reservedNames := by decide

theorem Standing.apart (standing : Standing context s) (since : Since s s' spared) :
    Apart spared context.env := by
  intro name hosts member
  have known := standing.known name hosts
  rcases since.made name member with rfl | made
  · exact known.unreserved values_reserved
  · exact known.disjoint made

/-- Later in the compilation the new names are spared as well. -/
theorem Since.sparing (since : Since s s' spared) (sparing : Sparing (· = "values") s') :
    Sparing spared s' :=
  { sparing with
    values := since.values
    spent := fun name member => by
      rcases since.made name member with rfl | made
      · exact .inl values_reserved
      · exact Spent.of_made made }

/-- The code of a form compiled from then on spares the new names. -/
theorem Standing.code (standing : Standing context s) (since : Since s s' spared)
    (sparing : Sparing (· = "values") s') {step : Compile α} {P : α → Prop} {a : α}
    {s'' : CompileState} (spares : Apart spared context.env → Spares spared step P)
    (done : step s' = .ok a s'') :
    P a := by
  have ends := spares (standing.apart since) s' (since.sparing sparing)
  rw [done] at ends
  cases ends with
  | ok _ _ held => exact held

/-- After a step that succeeds the form still stands where it stood. -/
theorem Sparing.after {step : Compile α} {P : α → Prop} {a : α}
    (spares : Spares (· = "values") step P) (sparing : Sparing (· = "values") s)
    (done : step s = .ok a s') :
    s.counters.Leads s'.counters ∧ Sparing (· = "values") s' := by
  have ends := spares s sparing
  rw [done] at ends
  cases ends with
  | ok leads sparing _ => exact ⟨leads, sparing⟩

end Compilation

section Scopes

variable {i j k : Image} {b c : Nat} {spared : String → Prop} {names : List String}

/-- Variables of acceptors around a new scope, and some of the new scope's own. -/
def around (c : Nat) (spared : String → Prop) (d : Nat) (name : String) : Prop :=
  d < c ∧ name = "values" ∨ d = c ∧ spared name

theorem inside_size (i : Image) (b : Nat) :
    (Image.inside i b).heap.scopes.size = i.heap.scopes.size + 1 :=
  Array.size_push ..

theorem inside_scope (i : Image) (b : Nat) :
    (Image.inside i b).heap.scope i.heap.scopes.size =
      ⟨({} : Variables).insert "arguments" (.vector i.heap.vectors.size), some b, true⟩ := by
  change (i.heap.scopes.push _).getD i.heap.scopes.size default = _
  rw [getD_push, if_pos rfl]

/-- Opening a scope changes nothing but that. -/
theorem Machine.Ordered.inside_steady {watched : Nat → String → Prop} (valid : Valid watched i)
    (bound : b < i.heap.scopes.size) :
    Steady watched i (Image.inside i b) := by
  have first := (IsQuiet.allocVector #[]).steady valid
  exact first.trans (Steady.allocScope first.valid rfl bound)

/-- Nothing that was there before the new scope was made can see it. -/
theorem Machine.Ordered.inside (ordered : Ordered i.heap) (bound : b < i.heap.scopes.size)
    (spared : String → Prop) :
    Valid (around i.heap.scopes.size spared) (Image.inside i b) := by
  have steady := Ordered.inside_steady ordered.valid bound
  refine ⟨steady.ordered, ?_, ?_⟩
  · rintro d name (⟨lower, -⟩ | ⟨rfl, -⟩)
    · exact Nat.lt_of_lt_of_le lower steady.scopes
    · rw [inside_size]
      exact Nat.lt_succ_self _
  · rintro d name member a params body c callable sees
    have callable' : (i.heap.function a).callable = .closure params body c := callable
    obtain ⟨lower, values⟩ := ordered.closures a params body c callable'
    rcases member with ⟨-, rfl⟩ | ⟨rfl, -⟩
    · exact values
    · exact absurd lower (Nat.not_lt.mpr (sees.le steady.ordered))

theorem Machine.Clear.ofFree (values : spared "values") (bound : c < i.heap.scopes.size)
    (free : Free spared names) : Clear (around c spared) i.heap c names := by
  refine ⟨bound, fun member => free _ member values, ?_⟩
  rintro d name (⟨-, rfl⟩ | ⟨-, member⟩) - inside
  · exact free _ inside values
  · exact free name inside member

/-- The new scope is a function's own. -/
theorem Machine.Steady.functionScope_inside {watched : Nat → String → Prop} (ordered : Ordered i.heap)
    (bound : b < i.heap.scopes.size) (steady : Steady watched (Image.inside i b) j) :
    j.heap.functionScope i.heap.scopes.size = i.heap.scopes.size := by
  have opened := (Ordered.inside_steady ordered.valid bound).ordered
  rw [steady.functionScope opened (by rw [inside_size]; exact Nat.lt_succ_self _)]
  rw [Heap.functionScope, inside_size, Heap.findScopeWithin, inside_scope]
  rfl

theorem Machine.Undeclared.ofFree (values : spared "values") (free : Free spared names) :
    Undeclared (around c spared) i.heap c names := by
  rintro d name (⟨-, rfl⟩ | ⟨-, member⟩) - inside
  · exact free _ inside values
  · exact free name inside member

/-- Looking up a variable whose values in the scopes around have not changed. -/
theorem findVariable_congr {first second : Heap} (ordered : Ordered first) {name : String}
    (parents : ∀ d, d ≤ c → (second.scope d).parent = (first.scope d).parent)
    (kept : ∀ d, d ≤ c → (second.scope d).vars[name]? = (first.scope d).vars[name]?)
    {limit limit' : Nat} (below : c < limit) (below' : c < limit') :
    second.findVariableWithin name limit c = first.findVariableWithin name limit' c := by
  induction limit generalizing c limit' with
  | zero => omega
  | succ limit ih =>
      obtain ⟨limit', rfl⟩ : ∃ n, limit' = n + 1 := ⟨limit' - 1, by omega⟩
      simp only [Heap.findVariableWithin, parents c (Nat.le_refl _), kept c (Nat.le_refl _)]
      split
      · rfl
      · cases parent : (first.scope c).parent with
        | none => rfl
        | some p =>
            have lower := ordered.parents c p parent
            exact ih (fun d le => parents d (by omega)) (fun d le => kept d (by omega))
              (by omega) (by omega)

/-- The acceptor that a form's values are handed to. -/
def Accepts (context : Context) (heap : Heap) (b : Nat) (acceptor : Value) : Prop :=
  if context.manyValues then heap.lookupVariable? b "values" = some acceptor
  else acceptor = .function (Image.nativeAddress (.routine .primaryValue))

variable {context : Context} {acceptor : Value}

theorem Accepts.mono {heap heap' : Heap} (accepts : Accepts context heap b acceptor)
    (same : heap'.lookupVariable? c "values" = heap.lookupVariable? b "values") :
    Accepts context heap' c acceptor := by
  unfold Accepts at accepts ⊢
  split
  · rename_i many
    rw [if_pos many] at accepts
    rw [same, accepts]
  · rename_i single
    rwa [if_neg single] at accepts

theorem Accepts.eval {call : Caller} {turns : Nat} (accepts : Accepts context i.heap b acceptor) :
    evalExpr call turns b context.acceptor i = .ok acceptor i := by
  unfold Accepts at accepts
  unfold Context.acceptor
  split
  · rename_i many
    rw [if_pos many] at accepts
    exact evalExpr_ident accepts
  · rename_i single
    rw [if_neg single] at accepts
    subst accepts
    rfl

/-- A scope without a variable shows the one of the scope around it. -/
theorem lookupVariable?_outer {heap : Heap} (ordered : Ordered heap) {name : String} {p : Nat}
    (bound : c < heap.scopes.size) (parent : (heap.scope c).parent = some p)
    (hidden : (heap.scope c).vars[name]? = none) :
    heap.lookupVariable? c name = heap.lookupVariable? p name := by
  have lower := ordered.parents c p parent
  obtain ⟨n, size_eq⟩ : ∃ n, heap.scopes.size = n + 1 := ⟨heap.scopes.size - 1, by omega⟩
  rw [Heap.lookupVariable?, Heap.lookupVariable?, size_eq, Heap.findVariableWithin]
  simp only [hidden, parent]
  exact findVariable_congr ordered (fun _ _ => rfl) (fun _ _ => rfl) (by omega) (by omega)

/-- The new scope has no acceptor of its own, and those around it stay. -/
theorem Accepts.inside (ordered : Ordered i.heap) (bound : b < i.heap.scopes.size)
    (values : spared "values") (accepts : Accepts context i.heap b acceptor)
    (steady : Steady (around i.heap.scopes.size spared) (Image.inside i b) j) :
    Accepts context j.heap i.heap.scopes.size acceptor := by
  have opened := Ordered.inside_steady ordered.valid bound
  have inner : i.heap.scopes.size < (Image.inside i b).heap.scopes.size := by
    rw [inside_size]
    exact Nat.lt_succ_self _
  have parent : (j.heap.scope i.heap.scopes.size).parent = some b := by
    rw [steady.parents _ inner, inside_scope]
  have hidden : (j.heap.scope i.heap.scopes.size).vars["values"]? = none := by
    rw [steady.kept _ "values" (.inr ⟨rfl, values⟩), inside_scope,
      Std.TreeMap.getElem?_insert, if_neg (by decide)]
    simp
  refine accepts.mono ?_
  rw [lookupVariable?_outer steady.ordered (Nat.lt_of_lt_of_le inner steady.scopes) parent hidden]
  refine findVariable_congr ordered (fun d le => ?_) (fun d le => ?_) ?_ bound
  · rw [steady.parents d (by omega), opened.parents d (by omega)]
  · have same : (j.heap.scope d).vars["values"]? =
        ((Image.inside i b).heap.scope d).vars["values"]? :=
      steady.kept d "values" (.inl ⟨by omega, rfl⟩)
    rw [same]
    change (((i.heap.scopes.push _).getD d default).vars["values"]?) = _
    rw [getD_push, if_neg (by omega)]
    rfl
  · have := steady.scopes
    omega

/-- A handler opens a scope. -/
theorem Machine.Valid.handler_steady {watched : Nat → String → Prop} (valid : Valid watched k)
    (bound : c < k.heap.scopes.size) (a : Address) :
    Steady watched k (handlerImage k c a) :=
  have opened := @Steady.allocScope _ _ valid
    ⟨({} : Variables).insert "cf" (.transfer a), some c, false⟩ _ rfl bound
  opened.trans (Quiet.steady ⟨rfl, fun _ => rfl, Nat.le_refl _, .refl _, .refl _⟩ opened.valid)

theorem Machine.Ordered.handler (ordered : Ordered k.heap) (bound : c < k.heap.scopes.size)
    (a : Address) :
    Ordered (handlerImage k c a).heap :=
  (ordered.valid.handler_steady bound a).ordered

/-- A handler's own scope has no acceptor. -/
theorem Accepts.handler (ordered : Ordered k.heap) (bound : c < k.heap.scopes.size)
    (accepts : Accepts context k.heap c acceptor) (a : Address) :
    Accepts context (handlerImage k c a).heap k.heap.scopes.size acceptor := by
  have opened := ordered.valid.handler_steady bound a
  have size : (handlerImage k c a).heap.scopes.size = k.heap.scopes.size + 1 := Array.size_push ..
  refine accepts.mono ?_
  rw [lookupVariable?_outer opened.ordered (by omega) (by rw [handlerImage_scope])]
  · refine findVariable_congr ordered (fun d le => opened.parents d (by omega)) (fun d le => ?_)
      (by omega) bound
    change (((k.heap.scopes.push _).getD d default).vars["values"]?) = _
    rw [getD_push, if_neg (by omega)]
    rfl
  · rw [handlerImage_scope, Std.TreeMap.getElem?_insert, if_neg (by decide)]
    simp

end Scopes

section Routines

variable {i : Image} {steps : Nat}

/-- A support routine is called where scripts find it. -/
theorem callWithin_native (ordered : Ordered i.heap) (n : Native) (args : List Value) :
    callWithin (steps + 1) (.function (Image.nativeAddress n)) args i =
      runNative (callWithin steps) n args i := by
  rw [callWithin_function, ordered.natives n]

end Routines

section Beginning

/-- A session's first state, with the cells of forms that were read. -/
def CompileState.reading (cells : List Cell) : CompileState :=
  { image := { Image.initial 1000 with heap := { Image.initialHeap with cells := cells.toArray } } }

theorem nativeIndex (n : Native) : Native.all[Image.nativeAddress n]? = some n := by
  cases n with
  | routine r =>
      obtain ⟨bound, -⟩ := List.getElem?_eq_some_iff.mp (Image.routineIndex r)
      rw [Native.all, Image.nativeAddress, List.getElem?_append_left (by simpa using bound),
        List.getElem?_map, Image.routineIndex]
      rfl
  | primitive p =>
      rw [Native.all, Image.nativeAddress, List.getElem?_append_right (by simp), List.length_map,
        Nat.add_sub_cancel_left, List.getElem?_map, Image.primitiveIndex]
      rfl

theorem Machine.Ordered.initial (cells : Array Cell) :
    Ordered { Image.initialHeap with cells } where
  global := Nat.one_pos
  parents c p parent := by
    cases c with
    | zero => cases parent
    | succ c => cases parent
  closures a params body c callable := by
    have all : ∀ f ∈ Image.initialHeap.functions, ∀ params body c,
        f.callable ≠ .closure params body c := by
      intro f member params body c
      simp only [Image.initialHeap, Array.mem_append, List.mem_toArray, List.mem_map] at member
      rcases member with ⟨n, -, rfl⟩ | ⟨p, -, rfl⟩ <;> exact fun same => by cases same
    by_cases bound : a < Image.initialHeap.functions.size
    · refine absurd ?_ (all _ (Array.getElem_mem bound) params body c)
      rw [← callable]
      exact congrArg FunctionObject.callable (by simp [Heap.function, Array.getD, bound])
    · rw [Heap.function, Array.getD_eq_getD_getElem?, Array.getElem?_eq_none (Nat.le_of_not_lt bound)]
        at callable
      cases callable
      exact ⟨Nat.one_pos, List.not_mem_nil⟩
  natives n := by
    have found := nativeIndex n
    obtain ⟨bound, -⟩ := List.getElem?_eq_some_iff.mp found
    change (Image.initialHeap.functions.getD (Image.nativeAddress n) default).callable = _
    rw [Array.getD_eq_getD_getElem?, Image.initialHeap, Array.getElem?_append_left (by simpa using bound),
      List.getElem?_toArray, List.getElem?_map, found]
    rfl

/-- Only constants are known from the start. -/
theorem slots_initial {key : Nat} {binding : Binding}
    (known : Bindings.initial.globals[key]? = some binding) (name : String) :
    binding.reference ≠ .host name := by
  have inserted : Bindings.initial.globals =
      (({} : Bindings).globals.insert (globalKey SymbolId.t .vars) _).insert
        (globalKey SymbolId.nil .vars) _ := rfl
  rw [inserted, Std.TreeMap.getElem?_insert, Std.TreeMap.getElem?_insert] at known
  split at known
  · cases known
    nofun
  · split at known
    · cases known
      nofun
    · simp at known

theorem CompileState.standing_reading (cells : List Cell) :
    Standing .toplevel (CompileState.reading cells) where
  sparing :=
    { values := rfl
      spent := fun name same => .inl (same ▸ values_reserved)
      ordered := .initial _
      bounded := ⟨Nat.zero_le _, Nat.zero_le _, Nat.zero_le _, Nat.zero_le _⟩
      globals := by
        intro key binding name known
        exact (slots_initial known) name
      literals := rfl }
  known := by
    rintro name ⟨_, member, _⟩
    cases member

end Beginning

end LispScript
