import LispScript.Proofs.Signals

/-!
Dynamic extent: where a run is when a part of it is at work, and what stands between that part and
the whole. An interrupt of the part goes through the handlers and the cleanups in between, from the
innermost to the outermost, and what is left of it interrupts the whole.
-/

namespace LispScript.Machine

open Script Compiler Discipline

/-- What stands around the part of a run that is at work: a handler, with the scope it belongs to
and what it is for, a cleanup, or a call that is counted. -/
inductive Layer where
  | exit (scope : Nat) (kind : TransferKind) (target : Value)
  | cleanup (task : Run Flow)
  | activation

/-- A variable of a scope has a value. -/
structure Holds (heap : Heap) (scope : Nat) (name : String) (value : Value) : Prop where
  bound : scope < heap.scopes.size
  held : (heap.scope scope).vars[name]? = some value

/-- The run `outer` from the image `i` is at the run `inner` from the image `j`, with the pending
ones around it in order, the innermost first. A handler is known by the value of its variable, which
must still be there when the handler is asked. -/
inductive Active (inner : Run β) (j : Image) : {α : Type} → Run α → Image → List Layer → Prop where
  | here : Active inner j inner j []
  | first (active : Active inner j part i pending) : Active inner j (part >>= rest) i pending
  | next (done : part i = .ok a i') (active : Active inner j (rest a) i' pending) :
      Active inner j (part >>= rest) i pending
  | counted (below : i.depth < i.depthLimit)
      (active : Active inner j body { i with depth := i.depth + 1 } pending) :
      Active inner j (counted body) i (pending ++ [.activation])
  | intercepted {call : Caller} {turns : Nat} {code handler : List Stmt} (name_ne : name ≠ "cf")
      (held : Holds i.heap b name target)
      (keeps : ∀ a k, execBlock call turns b code i = .error (.thrown (.transfer a)) k →
        Holds k.heap b name target)
      (active : Active inner j (execBlock call turns b code) i pending) :
      Active inner j (exec call turns b (intercept code kind (.ident name) handler)) i
        (pending ++ [.exit b kind target])
  | ensured (active : Active inner j block i pending) :
      Active inner j (ensuring block cleanup) i (pending ++ [.cleanup cleanup])
  | cleaning (ended : block i = .ok flow i' ∨
        ∃ interrupt, interrupt ≠ .outOfSteps ∧ block i = .error interrupt i')
      (active : Active inner j cleanup i' pending) : Active inner j (ensuring block cleanup) i pending

/-- What an interrupt becomes on its way past one of the pending ones. A handler lets pass what is
not for it, and every failure; a cleanup runs once, and takes the interrupt's place if it is
interrupted itself. -/
inductive Layer.Lets : Layer → Interrupt → Image → Interrupt → Image → Prop where
  | failure : Lets (.exit b kind target) (.failed error) k (.failed error) k
  | foreign (other : isFor kind target (k.heap.transfer a) = false) :
      Lets (.exit b kind target) (.thrown (.transfer a)) k (.thrown (.transfer a))
        (handlerImage k b a)
  | cleaned (goes : interrupt ≠ .outOfSteps) (done : task k = .ok .normal k') :
      Lets (.cleanup task) interrupt k interrupt k'
  | replaced (goes : interrupt ≠ .outOfSteps) (failed : task k = .error interrupt' k') :
      Lets (.cleanup task) interrupt k interrupt' k'
  | activation : Lets .activation interrupt k interrupt { k with depth := k.depth - 1 }

/-- What an interrupt becomes on its way past all the pending ones, in order. -/
inductive Crosses : List Layer → Interrupt → Image → Interrupt → Image → Prop where
  | nil : Crosses [] interrupt k interrupt k
  | cons (lets : pending.Lets interrupt k interrupt' k')
      (crosses : Crosses rest interrupt' k' interrupt'' k'') :
      Crosses (pending :: rest) interrupt k interrupt'' k''

section Crossing

variable {i j k k' : Image} {pending inside around : List Layer} {interrupt interrupt' : Interrupt}
  {b : Nat} {name : String} {target : Value}

theorem crosses_append : Crosses (inside ++ around) interrupt k interrupt' k' ↔
    ∃ between middle, Crosses inside interrupt k between middle ∧
      Crosses around between middle interrupt' k' := by
  induction inside generalizing interrupt k with
  | nil =>
      refine ⟨fun crosses => ⟨interrupt, k, .nil, crosses⟩, ?_⟩
      rintro ⟨_, _, ⟨⟩, crosses⟩
      exact crosses
  | cons head rest ih =>
      constructor
      · rintro (_ | ⟨lets, crosses⟩)
        obtain ⟨between, middle, inner, outer⟩ := ih.mp crosses
        exact ⟨between, middle, .cons lets inner, outer⟩
      · rintro ⟨between, middle, _ | ⟨lets, inner⟩, outer⟩
        exact .cons lets (ih.mpr ⟨between, middle, inner, outer⟩)

theorem crosses_snoc {last : Layer} :
    Crosses (inside ++ [last]) interrupt k interrupt' k' ↔
    ∃ between middle, Crosses inside interrupt k between middle ∧
      last.Lets between middle interrupt' k' := by
  rw [crosses_append]
  constructor
  · rintro ⟨between, middle, inner, _ | ⟨lets, ⟨⟩⟩⟩
    exact ⟨between, middle, inner, lets⟩
  · rintro ⟨between, middle, inner, lets⟩
    exact ⟨between, middle, inner, .cons lets .nil⟩

theorem Holds.lookup (holds : Holds k.heap b name target) :
    k.heap.lookupVariable? b name = some target :=
  lookupVariable?_own holds.bound holds.held

/-- A handler's own scope hides nothing but the signal. -/
theorem Holds.lookup_handlerImage (holds : Holds k.heap b name target) (name_ne : name ≠ "cf")
    (a : Address) :
    (handlerImage k b a).heap.lookupVariable? k.heap.scopes.size name = some target := by
  have own : (handlerImage k b a).heap.scope b = k.heap.scope b := by
    change (k.heap.scopes.push _).getD b default = k.heap.scopes.getD b default
    rw [getD_push, if_neg (Nat.ne_of_lt holds.bound)]
  have hidden : (({} : Variables).insert "cf" (Value.transfer a))[name]? = none := by
    rw [Std.TreeMap.getElem?_insert, if_neg]
    · simp
    · rw [Std.LawfulEqCmp.compare_eq_iff_eq]
      exact Ne.symm name_ne
  have bound := holds.bound
  obtain ⟨n, size_eq⟩ : ∃ n, k.heap.scopes.size = n + 1 := ⟨k.heap.scopes.size - 1, by omega⟩
  have size_succ : (handlerImage k b a).heap.scopes.size = n + 1 + 1 := by
    rw [← size_eq]
    exact Array.size_push ..
  simp only [Heap.lookupVariable?, size_succ, Heap.findVariableWithin, handlerImage_scope, hidden,
    own, holds.held]

/-- A cleanup after an interrupt. -/
theorem ensuring_lets {block cleanup : Run Flow} (ended : block i = .error interrupt k)
    (lets : Layer.Lets (.cleanup cleanup) interrupt k interrupt' k') :
    ensuring block cleanup i = .error interrupt' k' := by
  cases lets with
  | cleaned goes done => rw [ensuring_of_error ended goes, done]
  | replaced goes failed => rw [ensuring_of_error ended goes, failed]

/-- A handler after an interrupt that it lets pass. -/
theorem intercept_lets {call : Caller} {turns : Nat} {code handler : List Stmt}
    {kind : TransferKind} (name_ne : name ≠ "cf")
    (keeps : ∀ a k, execBlock call turns b code i = .error (.thrown (.transfer a)) k →
      Holds k.heap b name target)
    (ended : execBlock call turns b code i = .error interrupt k)
    (lets : Layer.Lets (.exit b kind target) interrupt k interrupt' k') :
    exec call turns b (intercept code kind (.ident name) handler) i = .error interrupt' k' := by
  cases lets with
  | failure =>
      rw [exec_intercept_of_not_thrown, ended]
      intro thrown later thrownEnd
      rw [ended] at thrownEnd
      cases thrownEnd
  | foreign other =>
      rw [exec_intercept_of_thrown ended,
        execHandler_eq ((keeps _ _ ended).lookup_handlerImage name_ne _), if_neg (by simp [other])]

/-- What interrupts a part of a run interrupts the whole, as what it becomes on its way out. -/
theorem Active.crosses {inner : Run β} {outer : Run α} (active : Active inner j outer i pending)
    (ended : inner j = .error interrupt k) (crosses : Crosses pending interrupt k interrupt' k') :
    outer i = .error interrupt' k' := by
  induction active generalizing interrupt' k' with
  | here =>
      cases crosses
      exact ended
  | first active ih =>
      change EStateM.bind _ _ _ = _
      rw [EStateM.bind, ih crosses]
  | next done active ih =>
      rw [bind_of_ok done]
      exact ih crosses
  | counted below active ih =>
      obtain ⟨between, middle, inside, lets⟩ := crosses_snoc.mp crosses
      cases lets
      rw [Machine.counted, if_pos below, ih inside]
  | intercepted name_ne held keeps active ih =>
      obtain ⟨between, middle, crosses, lets⟩ := crosses_snoc.mp crosses
      exact intercept_lets name_ne keeps (ih crosses) lets
  | ensured active ih =>
      obtain ⟨between, middle, crosses, lets⟩ := crosses_snoc.mp crosses
      exact ensuring_lets (ih crosses) lets
  | cleaning ended_block active ih =>
      rcases ended_block with done | ⟨first, goes, failed⟩
      · rw [ensuring_of_ok done, ih crosses]
      · rw [ensuring_of_error failed goes, ih crosses]

/-- A part of a part of a run is a part of the run. -/
theorem Active.trans {x : Run γ} {inner : Run β} {outer : Run α} {l : Image}
    (active : Active x l inner j inside) (further : Active inner j outer i around) :
    Active x l outer i (inside ++ around) := by
  induction further with
  | here => simpa using active
  | first _ ih => exact .first ih
  | next done _ ih => exact .next done ih
  | counted below _ ih =>
      rw [← List.append_assoc]
      exact .counted below ih
  | intercepted name_ne held keeps _ ih =>
      rw [← List.append_assoc]
      exact .intercepted name_ne held keeps ih
  | ensured _ ih =>
      rw [← List.append_assoc]
      exact .ensured ih
  | cleaning ended _ ih => exact .cleaning ended ih

end Crossing

end LispScript.Machine
