import LispScript.Proofs.Catch
import LispScript.Proofs.Interning
import LispScript.Proofs.LambdaCalls
import LispScript.Proofs.LiteralHeads

/-!
Quoted data. The program of a unit makes a copy of each object that it quotes and of each object
inside, one copy for one object; whatever evaluation of a QUOTE gives an object gives its copy.
-/

namespace LispScript

open Script Compiler Machine Discipline

variable {image i j k : Image} {heap later : Heap} {value copy datum : Value} {c d : Nat}
  {entries : List Hoisted} {entry : Hoisted} {made : LiteralKey → Value} {code : Expr}
  {copies : Value → Value → Prop}

section Data

/-- Conses and vectors, of which there can be several with the same parts. -/
def Value.IsObject : Value → Prop
  | .cons _ | .vector _ => True
  | _ => False

/-- Data that a program can quote: atoms, and what is built of it in finitely many steps from conses
and vectors. -/
inductive Image.Quotable (image : Image) : Value → Prop where
  | nil : Quotable image .nil
  | number (n : Float) : Quotable image (.number n)
  | string (address : Address) (text : String) : Quotable image (.string address text)
  | character (ch : Char) : Quotable image (.character ch)
  | symbol {id : SymbolId} (known : image.symbols.HasSymbol id) (notNil : id ≠ SymbolId.nil) :
      Quotable image (.symbol id)
  | cons {a : Address} (bound : a < image.heap.cells.size)
      (car : Quotable image (image.heap.cell a).car) (cdr : Quotable image (image.heap.cell a).cdr) :
      Quotable image (.cons a)
  | vector {a : Address} (bound : a < image.heap.vectors.size)
      (items : ∀ item ∈ (image.heap.vector a).toList, Quotable image item) :
      Quotable image (.vector a)

/-- What is identical has one copy, and what is distinct has distinct ones. -/
structure OneToOne (copies : Value → Value → Prop) : Prop where
  unique : ∀ {datum a b}, copies datum a → copies datum b → a = b
  distinct : ∀ {x y copy}, copies x copy → copies y copy → x = y

/-- A value in a later heap has the shape of one in another heap, with the same atoms, the identical
symbols among them, and each cons and vector in it is the copy of the one in its place. -/
inductive Heap.Copied (copies : Value → Value → Prop) (heap later : Heap) : Value → Value → Prop where
  | nil : Copied copies heap later .nil .nil
  | number (n : Float) : Copied copies heap later (.number n) (.number n)
  | string (a b : Address) (text : String) :
      Copied copies heap later (.string a text) (.string b text)
  | character (ch : Char) : Copied copies heap later (.character ch) (.character ch)
  | symbol (id : SymbolId) : Copied copies heap later (.symbol id) (.symbol id)
  | cons {a b : Address} (copied : copies (.cons a) (.cons b)) (bound : b < later.cells.size)
      (car : Copied copies heap later (heap.cell a).car (later.cell b).car)
      (cdr : Copied copies heap later (heap.cell a).cdr (later.cell b).cdr) :
      Copied copies heap later (.cons a) (.cons b)
  | vector {a b : Address} (copied : copies (.vector a) (.vector b))
      (bound : b < later.vectors.size) (size : (heap.vector a).size = (later.vector b).size)
      (items : ∀ (n : Nat) (x y : Value), (heap.vector a)[n]? = some x →
        (later.vector b)[n]? = some y → Copied copies heap later x y) :
      Copied copies heap later (.vector a) (.vector b)

/-- The literals of a unit and the values that were made for them. -/
def Compiler.CopiedAs (entries : List Hoisted) (made : LiteralKey → Value) (datum copy : Value) :
    Prop :=
  ∃ entry ∈ entries, entry.key.datum = datum ∧ made entry.key = copy

/-- Nothing that can be quoted contains itself. -/
theorem Image.Quotable.acyclic (quotable : image.Quotable datum) : Acc image.heap.Part datum := by
  induction quotable with
  | nil | number | string | character | symbol =>
      exact .intro _ fun part inside => by cases inside
  | cons bound _ _ car cdr =>
      refine .intro _ fun part inside => ?_
      cases inside with
      | car => exact car
      | cdr => exact cdr
  | vector bound _ items =>
      refine .intro _ fun part inside => ?_
      cases inside with
      | item _ member => exact items part member

theorem forall₂_getElem {α β : Type} {r : α → β → Prop} {as : List α} {bs : List β}
    (related : List.Forall₂ r as bs) {n : Nat} {a : α} {b : β} (left : as[n]? = some a)
    (right : bs[n]? = some b) : r a b := by
  obtain ⟨boundA, rfl⟩ := List.getElem?_eq_some_iff.mp left
  obtain ⟨boundB, rfl⟩ := List.getElem?_eq_some_iff.mp right
  exact related.get boundA boundB

/-- The copy of a cons has copies of its car and cdr. -/
theorem Heap.Copied.ofCons {a : Address} (copied : heap.Copied copies later (.cons a) value) :
    ∃ b, value = .cons b ∧ copies (.cons a) (.cons b) ∧
      heap.Copied copies later (heap.cell a).car (later.cell b).car ∧
      heap.Copied copies later (heap.cell a).cdr (later.cell b).cdr := by
  cases copied with
  | cons copied bound car cdr => exact ⟨_, rfl, copied, car, cdr⟩

/-- Objects that are added later change nothing about a copy. -/
theorem Heap.Copied.kept {last : Heap} (copied : heap.Copied copies later datum value)
    (keeps : later.Keeps last) : heap.Copied copies last datum value := by
  induction copied with
  | nil => exact .nil
  | number n => exact .number n
  | string a b text => exact .string a b text
  | character ch => exact .character ch
  | symbol id => exact .symbol id
  | cons copied bound _ _ car cdr =>
      rw [← keeps.cell _ bound] at car cdr
      exact .cons copied (Nat.lt_of_lt_of_le bound keeps.cells) car cdr
  | vector copied bound size _ items =>
      rw [← keeps.vector _ bound] at size items
      exact .vector copied (Nat.lt_of_lt_of_le bound keeps.vectors) size items

/-- What is known by a key that is among the literals. -/
theorem Compiler.Denotes.exists_entry (denotes : Denotes entries datum code) {key : LiteralKey}
    (known : literalKey? datum = some key) (unwritten : writtenCode? datum = none) :
    ∃ entry ∈ entries, entry.key = key ∧ code = .ident entry.name := by
  cases denotes with
  | named member is => exact ⟨_, member, Option.some.inj (is.symm.trans known), rfl⟩
  | written code =>
      rw [unwritten] at code
      cases code

/-- A head makes one value for each literal, and no value for two. -/
theorem HeadRan.oneToOne (ran : HeadRan entries made c i j) : OneToOne (CopiedAs entries made) where
  unique := by
    rintro _ _ _ ⟨entry, -, rfl, rfl⟩ ⟨other, -, same, rfl⟩
    rw [LiteralKey.datum_inj same]
  distinct := by
    rintro _ _ _ ⟨entry, member, rfl, rfl⟩ ⟨other, member', rfl, same⟩
    rw [ran.distinct other member' entry member same]

/-- What is known by a name has the value that was made for it. -/
theorem Compiler.Denotes.copied (denotes : Denotes entries datum code)
    (isValue : LiteralValue made datum value) (object : datum.IsObject) :
    CopiedAs entries made datum value := by
  cases datum with
  | cons | vector =>
      obtain ⟨entry, member, key, -⟩ := denotes.exists_entry rfl rfl
      exact ⟨entry, member, congrArg LiteralKey.datum key, (congrArg made key).trans isValue.symm⟩
  | _ => cases object

/-- The values of the literals are copies of the data, provided it did not change. -/
theorem HeadRan.copied (ran : HeadRan entries made c i j) (inOrder : InOrder entries)
    (unchanged : ∀ entry ∈ entries, entry.parts = image.heap.parts entry.key.datum)
    (quotable : image.Quotable datum) (denotes : Denotes entries datum code)
    (isValue : LiteralValue made datum value) :
    image.heap.Copied (CopiedAs entries made) j.heap datum value := by
  have parts : ∀ entry ∈ entries, ∀ codes, List.Forall₂ (Denotes entries) entry.parts codes →
      List.Forall₂ (fun part value => LiteralValue made part value ∧
        ∃ code, Denotes entries part code) (image.heap.parts entry.key.datum)
        (j.heap.parts (made entry.key)) := by
    intro entry member codes denote
    rw [← unchanged entry member]
    exact forall₂_congr_left denote (ran.parts entry member) fun _ _ _ denotes isValue =>
      ⟨isValue, _, denotes⟩
  induction quotable generalizing value code with
  | nil =>
      cases isValue
      exact .nil
  | number n =>
      cases isValue
      exact .number n
  | string a text =>
      obtain ⟨b, rfl⟩ := isValue
      exact .string a b text
  | character ch =>
      cases isValue
      exact .character ch
  | @symbol id known notNil =>
      obtain rfl : value = .symbol id := isValue.trans (if_neg notNil)
      exact .symbol id
  | @cons a bound _ _ car cdr =>
      obtain ⟨entry, member, key, -⟩ := denotes.exists_entry rfl rfl
      have makes := inOrder.makes member
      have isMade := ran.isMade entry member
      obtain ⟨_, number, initializer, snapshot⟩ := entry
      obtain rfl := key
      obtain ⟨codes, denote, -⟩ := makes
      obtain ⟨b, is, -, upper⟩ := isMade
      have inside := parts _ member codes denote
      obtain rfl : value = .cons b := isValue.trans is
      rw [is] at inside
      rcases inside with _ | ⟨⟨first, _, denotesFirst⟩, _ | ⟨⟨second, _, denotesSecond⟩, _⟩⟩
      exact .cons (denotes.copied isValue trivial) upper (car denotesFirst first)
        (cdr denotesSecond second)
  | @vector a bound _ items =>
      obtain ⟨entry, member, key, -⟩ := denotes.exists_entry rfl rfl
      have makes := inOrder.makes member
      have isMade := ran.isMade entry member
      obtain ⟨_, number, initializer, snapshot⟩ := entry
      obtain rfl := key
      obtain ⟨codes, denote, -⟩ := makes
      obtain ⟨b, is, -, upper⟩ := isMade
      have inside := parts _ member codes denote
      obtain rfl : value = .vector b := isValue.trans is
      rw [is] at inside
      change List.Forall₂ _ (image.heap.vector a).toList (j.heap.vector b).toList at inside
      refine .vector (denotes.copied isValue trivial) upper (by simpa using inside.length_eq) fun n x y atX atY => ?_
      rw [← Array.getElem?_toList] at atX atY
      obtain ⟨isItem, _, denotesItem⟩ := forall₂_getElem inside atX atY
      exact items x (List.mem_of_getElem? atX) denotesItem isItem

end Data

section Compilation

variable {s : CompileState} {α β : Type} {step : Compile α} {rest : α → Compile β}

/-- How a step ends that leaves an image as it is, and fails only where there is no name for one more
literal. -/
inductive Concludes (image : Image) : EStateM.Result CompileError CompileState α → Prop where
  | ok {t : CompileState} {a : α} (same : t.image = image) : Concludes image (.ok a t)
  | error {t : CompileState} (exhausted : next t.counters.literals = t.counters.literals) :
      Concludes image (.error .outOfSteps t)

/-- A step that ends so wherever the image is the given one. -/
def Expresses (image : Image) (step : Compile α) : Prop :=
  ∀ s, s.image = image → Concludes image (step s)

theorem Expresses.pure (a : α) : Expresses image (Pure.pure a : Compile α) := fun _ same => .ok same

theorem Expresses.bind (first : Expresses image step) (second : ∀ a, Expresses image (rest a)) :
    Expresses image (step >>= rest) := by
  intro s same
  have ends := first s same
  cases ran : step s with
  | ok a t =>
      rw [ran] at ends
      cases ends with
      | ok same => exact bind_ended ran ▸ second a t same
  | error e t =>
      rw [ran] at ends
      cases ends with
      | error exhausted => exact bind_failed ran ▸ .error exhausted

theorem Expresses.mapM {f : Value → Compile Expr} {items : List Value}
    (each : ∀ item ∈ items, Expresses image (f item)) : Expresses image (items.mapM f) := by
  induction items with
  | nil => exact .pure _
  | cons item items ih =>
      rw [List.mapM_cons]
      exact .bind (each item List.mem_cons_self) fun _ =>
        .bind (ih fun item member => each item (List.mem_cons_of_mem _ member)) fun _ => .pure _

/-- What reads the image gets the one that there is. -/
theorem Expresses.reading {f : Image → Compile α} (onward : Expresses image (f image)) :
    Expresses image (fun s => f s.image s) := fun s same => same ▸ onward s same

theorem Expresses.hoist {make : Compile Expr} (makes : Expresses image make) (key : LiteralKey) :
    Expresses image (hoist key make) := by
  intro s same
  cases found : s.literals.names[key.code]? with
  | some name => exact hoist_found make found ▸ .ok same
  | none =>
      have ends := makes s same
      cases ran : make s with
      | error e t =>
          rw [ran] at ends
          cases ends with
          | error exhausted => exact hoist_failed found ran ▸ .error exhausted
      | ok code t =>
          rw [ran] at ends
          rw [hoist_absent found ran]
          split
          · rename_i exhausted
            exact .error exhausted
          · cases ends with
            | ok same => exact .ok same

/-- Data that can be quoted has an expression, unless the names for literals are used up. -/
theorem literalWithin_expresses {depth : Nat} (quotable : image.Quotable datum)
    (shallow : image.heap.Shallow depth datum) : Expresses image (literalWithin depth datum) := by
  induction quotable generalizing depth with
  | nil | number | string =>
      cases depth with
      | zero => cases shallow
      | succ depth => exact .pure _
  | symbol known notNil =>
      cases depth with
      | zero => cases shallow
      | succ depth =>
          rw [literalWithin, symbolLiteral, if_neg notNil]
          split
          · exact .pure _
          · exact .hoist (.reading (f := fun image => pure (symbolInitializer image.symbols _))
              (.pure _)) _
  | character ch =>
      cases depth with
      | zero => cases shallow
      | succ depth => exact .hoist (.pure _) _
  | @cons a bound _ _ car cdr =>
      cases depth with
      | zero => cases shallow
      | succ depth =>
          refine .hoist (.reading (f := fun image =>
            literalWithin depth (image.heap.cell a).car >>= fun car =>
              literalWithin depth (image.heap.cell a).cdr >>= fun cdr =>
                pure (Expr.callPrimitive .cons [car, cdr])) ?_) _
          exact .bind (car (shallow _ (.car bound))) fun _ =>
            .bind (cdr (shallow _ (.cdr bound))) fun _ => .pure _
  | @vector a bound _ items =>
      cases depth with
      | zero => cases shallow
      | succ depth =>
          refine .hoist (.reading (f := fun image =>
            (image.heap.vector a).toList.mapM (literalWithin depth) >>= fun items =>
              pure (Expr.callPrimitive .vector items)) ?_) _
          exact .bind (.mapM fun item member => items item member
            (shallow _ (.item bound member))) fun _ => .pure _

theorem literal_expresses (quotable : image.Quotable datum) : Expresses image (literal datum) :=
  .reading (f := fun image => literalWithin image.heap.size datum)
    (literalWithin_expresses quotable (Heap.shallow_of_acyclic quotable.acyclic))

end Compilation

section Running

/-- The variables that the head of a unit sets, and those of acceptors. -/
def HeadName (name : String) : Prop := name = "values" ∨ ∃ n, name = literalName n

/-- No scope inside a scope has a variable that is named like a literal. -/
def Heap.Unshadowed (heap : Heap) (c : Nat) : Prop :=
  ∀ d, d ≠ c → Sees heap d c → ∀ n, (heap.scope d).vars[literalName n]? = none

/-- An image later in the run of a unit whose literals are variables of a scope. -/
structure WithinUnit (c : Nat) (j k : Image) : Prop where
  steady : Steady (around c HeadName) j k
  unshadowed : k.heap.Unshadowed c

theorem Heap.lookup_own (heap : Heap) {name : String} (bound : d < heap.scopes.size)
    (held : (heap.scope d).vars[name]? = some value) : heap.lookupVariable? d name = some value := by
  have found : (⟨default, heap, 0, 0⟩ : Image).heap.lookupVariable? d name = some value :=
    lookupVariable?_own bound held
  exact found

/-- From every scope inside, the variables of literals are seen. -/
theorem Heap.Unshadowed.lookup (unshadowed : heap.Unshadowed c) (ordered : Ordered heap)
    (sees : Sees heap d c) (bound : d < heap.scopes.size) {n : Nat}
    (held : (heap.scope c).vars[literalName n]? = some value) :
    heap.lookupVariable? d (literalName n) = some value := by
  induction sees with
  | self => exact heap.lookup_own bound held
  | @outer d p c parent sees ih =>
      by_cases here : d = c
      · subst here
        exact heap.lookup_own bound held
      · rw [lookupVariable?_outer ordered bound parent (unshadowed d here (.outer parent sees) n)]
        exact ih unshadowed (Nat.lt_trans (ordered.parents d p parent) bound) held

/-- The image in which the head of a unit starts. -/
def unitImage (i : Image) : Image :=
  activationImage i Image.globalScope ["values"]
    [.function (Image.nativeAddress (.routine .packValues))]

theorem unitImage_active (ordered : Ordered i.heap) : Active i.heap.scopes.size (unitImage i) where
  ordered := (activationImage_steady ordered.valid ordered.global _ _).ordered
  bound := by
    rw [unitImage, activationImage_size]
    exact Nat.lt_succ_self _
  isFunction := by rw [unitImage, activationImage_scope]

/-- The program of a unit runs its head, and then what it computes. -/
theorem runWithin_unit {turns : Nat} {literals : Literals} {expr : Expr}
    (ran : execBlock (callWithin turns) turns i.heap.scopes.size
      literals.initializers.toList (unitImage i) = .ok .normal j) :
    runWithin turns (unitProgram literals expr) i =
      evalExpr (callWithin turns) turns i.heap.scopes.size expr j := by
  have body : execBlock (callWithin turns) turns i.heap.scopes.size
      (literals.initializers.toList ++ [.ret expr]) (unitImage i) =
        (evalExpr (callWithin turns) turns i.heap.scopes.size expr >>= fun value =>
          pure (.returned value)) j := by
    rw [execBlock_append_continues ran, execBlock_singleton, exec]
  have packer : evalList (callWithin turns) turns Image.globalScope
      [.routine .packValues] i = .ok [.function (Image.nativeAddress (.routine .packValues))] i := rfl
  rw [runWithin, unitProgram, runStatements, Expr.inPlace, evalExpr, bind_assoc, bind_of_ok packer,
    bind_assoc, bind_of_ok (openActivation_ok (by decide))]
  change ((execBlock _ _ _ _ >>= fun flow => resultOf flow) >>= fun value => pure value) (unitImage i) = _
  rw [bind_pure]
  change EStateM.bind _ _ _ = _
  rw [EStateM.bind, body]
  cases ended : evalExpr (callWithin turns) turns i.heap.scopes.size expr j with
  | ok value k =>
      rw [bind_of_ok ended]
      rfl
  | error e k =>
      have failed : (evalExpr (callWithin turns) turns i.heap.scopes.size expr >>=
          fun value => pure (Flow.returned value)) j = .error e k := by
        change EStateM.bind _ _ j = _
        rw [EStateM.bind, ended]
      rw [failed]

end Running

section Units

variable {s : CompileState} {form : Value} {depth turns : Nat} {program : Program} {expr : Expr}

/-- A unit with its literals and the code of what it computes. -/
structure IsUnit (program : Program) (last : CompileState) (entries : List Hoisted) (expr : Expr) :
    Prop where
  code : program = unitProgram last.literals expr
  tabled : Tabled last entries
  /-- The code assigns to no variable that is named like a literal. -/
  free : Free HeadName expr.assigned

/-- What the run of a unit comes to when its literals are made. -/
structure UnitRuns (turns : Nat) (program : Program) (entries : List Hoisted) (expr : Expr)
    (i : Image) (made : LiteralKey → Value) (j : Image) : Prop where
  run : runWithin (turns + 1) program i =
    evalExpr (callWithin (turns + 1)) (turns + 1) i.heap.scopes.size expr j
  head : HeadRan entries made i.heap.scopes.size (unitImage i) j
  starts : WithinUnit i.heap.scopes.size j j
  /-- The literals keep their values to the end of the run. -/
  keeps : Steady (around i.heap.scopes.size HeadName) j (imageOf (runWithin (turns + 1) program i))

theorem HeadRan.within (ran : HeadRan entries made i.heap.scopes.size (unitImage i) j)
    (ordered : Ordered i.heap) : WithinUnit i.heap.scopes.size j j := by
  have active := ran.prepares.active (unitImage_active ordered)
  have size : j.heap.scopes.size = i.heap.scopes.size + 1 := by
    rw [ran.prepares.size, unitImage, activationImage_size]
  have functions : ∀ a, j.heap.function a = i.heap.function a := by
    obtain ⟨_, _, _, _, rfl⟩ := ran.prepares.rest
    exact fun _ => rfl
  refine ⟨.refl ⟨active.ordered, ?_, ?_⟩, fun d inside sees n => ?_⟩
  · rintro d name (⟨lower, -⟩ | ⟨rfl, -⟩)
    · exact Nat.lt_trans lower active.bound
    · exact active.bound
  · rintro d name member a params body e callable sees
    rw [functions] at callable
    obtain ⟨lower, values⟩ := ordered.closures a params body e callable
    rcases member with ⟨-, rfl⟩ | ⟨rfl, -⟩
    · exact values
    · exact absurd lower (Nat.not_lt.mpr (sees.le active.ordered))
  · have above := sees.le active.ordered
    have absent : j.heap.scope d = default := by
      rw [Heap.scope, Array.getD_eq_getD_getElem?, Array.getElem?_eq_none (by omega)]
      rfl
    rw [absent]
    exact Std.TreeMap.getElem?_emptyc

/-- The state in which the compilation of a unit starts. -/
def startUnit (s : CompileState) : CompileState :=
  { s with counters := (Counters.freshUnit s.counters).2, literals := {} }

theorem compileToplevel_ok {u : CompileState}
    (compiled : compileToplevel (compileWithin depth) form s = .ok program u) :
    ∃ expr last, compileWithin depth .toplevel form (startUnit s) = .ok expr last ∧
      program = unitProgram last.literals expr := by
  unfold compileToplevel at compiled
  obtain ⟨_, t, fresh, compiled⟩ := ok_of_bind compiled
  obtain ⟨⟨expr, literals⟩, v, compiled, ended⟩ := ok_of_bind compiled
  cases ended
  obtain ⟨-, -, rfl⟩ := onCounters_ok fresh
  unfold inFreshUnit at compiled
  dsimp only at compiled
  cases ran : compileWithin depth .toplevel form (startUnit s) with
  | error e last =>
      rw [startUnit] at ran
      rw [ran] at compiled
      cases compiled
  | ok expr last =>
      rw [startUnit] at ran
      rw [ran] at compiled
      cases compiled
      exact ⟨expr, last, rfl, rfl⟩

/-- What a unit is the code of, and the literals that it has when its form has been compiled. -/
structure UnitOf (s : CompileState) (form : Value) (depth : Nat) (program : Program)
    (last : CompileState) (entries : List Hoisted) (expr : Expr) : Prop where
  compiled : compileWithin depth .toplevel form (startUnit s) = .ok expr last
  unit : IsUnit program last entries expr

theorem tabled_startUnit (standing : Standing .toplevel s) : Tabled (startUnit s) [] :=
  tabled_empty (s := { s with counters := (Counters.freshUnit s.counters).2 })
    standing.sparing.bounded.literals

theorem isUnit_of_ended {last : CompileState} (standing : Standing .toplevel s)
    (ended : compileWithin depth .toplevel form (startUnit s) = .ok expr last)
    (tabled : Tabled last entries) :
    IsUnit (unitProgram last.literals expr) last entries expr := by
  refine ⟨rfl, tabled, ?_⟩
  have sparing : Sparing HeadName (startUnit s) :=
    { ordered := standing.sparing.ordered
      globals := standing.sparing.globals
      literals := rfl
      values := .inl rfl
      spent := by
        rintro name (rfl | literal)
        · exact .inl values_reserved
        · exact .inr (.inl literal)
      bounded := ⟨standing.sparing.bounded.vars, standing.sparing.bounded.literals,
        standing.sparing.bounded.blocks, standing.sparing.bounded.tagbodies⟩ }
  have ends := compileWithin_spares depth .toplevel form apart_nil _ sparing
  rw [ended] at ends
  cases ends with
  | ok _ _ free => exact free

/-- What a form is compiled to is a unit. -/
theorem unitOf_compiled {u : CompileState} (standing : Standing .toplevel s)
    (compiled : compileToplevel (compileWithin depth) form s = .ok program u) :
    ∃ last entries expr, UnitOf s form depth program last entries expr := by
  obtain ⟨expr, last, ended, rfl⟩ := compileToplevel_ok compiled
  obtain ⟨entries, tabled⟩ := (tabled_startUnit standing).compiled ended
  exact ⟨last, entries, expr, ended, isUnit_of_ended standing ended tabled⟩

/-- The head of a unit makes its literals, whatever the unit computes then. -/
theorem IsUnit.runs {last : CompileState} (unit : IsUnit program last entries expr)
    (ordered : Ordered i.heap) (found : ∀ entry ∈ entries, entry.FoundIn i.symbols) (turns : Nat) :
    ∃ made j, UnitRuns turns program entries expr i made j := by
  obtain ⟨made, j, ran, head⟩ := head_ran (turns + 1) turns
    unit.tabled.inOrder (unitImage_active ordered) (i := unitImage i) found
  rw [← unit.tabled.initializers] at ran
  have run : runWithin (turns + 1) program i =
      evalExpr (callWithin (turns + 1)) (turns + 1) i.heap.scopes.size expr j :=
    unit.code ▸ runWithin_unit ran
  have starts := head.within ordered
  have bound : i.heap.scopes.size < j.heap.scopes.size :=
    (head.prepares.active (unitImage_active ordered)).bound
  refine ⟨made, j, run, head, starts, ?_⟩
  rw [run]
  exact evalExpr_steady (callWithin_steady _) expr j _
    ⟨starts.steady.valid, .ofFree (.inl rfl) bound unit.free⟩

/-- Wherever code that refers to the literals runs in the unit, it gives the value of its datum. -/
theorem UnitRuns.eval (call : Caller) (steps : Nat) (runs : UnitRuns turns program entries expr i made j)
    (within : WithinUnit i.heap.scopes.size j k) (sees : Sees k.heap d i.heap.scopes.size)
    (bound : d < k.heap.scopes.size) (denotes : Denotes entries datum code) :
    ∃ value later, evalExpr call steps d code k = .ok value later ∧
      Touches d (fun _ => False) k later ∧ LiteralValue made datum value := by
  refine Readied.eval call steps ⟨fun entry member => ?_, runs.head.symbol, runs.head.character⟩ denotes
  refine within.unshadowed.lookup within.steady.ordered sees bound ?_
  rw [within.steady.kept _ _ (.inr ⟨rfl, .inr ⟨_, rfl⟩⟩)]
  exact runs.head.held entry member

/-- The code of a QUOTE that is compiled in the course of a unit: after its start, and before the
compilation of its form ends. -/
inductive QuotedIn (s last : CompileState) (datum : Value) (code : Expr) : Prop where
  | intro {t u : CompileState} {context : Context} {quote : Value} {depth : Nat}
      (started : Later (startUnit s) t) (isQuote : IsForm t.image.heap .quote [datum] quote)
      (compiled : compileWithin (depth + 1) context quote t = .ok code u) (goesOn : Later u last) :
      QuotedIn s last datum code

/-- A unit that is one QUOTE. -/
theorem UnitOf.quotedIn {last : CompileState}
    (unit : UnitOf s form (depth + 1) program last entries expr)
    (isQuote : IsForm s.image.heap .quote [datum] form) : QuotedIn s last datum expr :=
  .intro (.refl _) isQuote unit.compiled (.refl _)

/-- Such code refers to the literals of the unit. -/
theorem IsUnit.quoted {last : CompileState} (unit : IsUnit program last entries expr)
    (standing : Standing .toplevel s) (quoted : QuotedIn s last datum code) :
    Denotes entries datum code := by
  obtain ⟨started, isQuote, compiled, goesOn⟩ := quoted
  rename_i t u context quote depth
  obtain ⟨-, sofar, before⟩ := (started KeepsLiterals).tabled [] (tabled_startUnit standing)
  rw [compileWithin_special isQuote] at compiled
  have literal_ : literalWithin t.image.heap.size datum t = .ok code u := compiled
  obtain ⟨more, makes, known⟩ := (literalWithin_hoists _ datum).after t _ before
  obtain ⟨-, denotes⟩ := known code u literal_
  rw [stateAfter_ok literal_] at makes
  obtain ⟨-, others, after⟩ := (goesOn KeepsLiterals).tabled _ makes.tabled
  cases denotes with
  | named member key =>
      obtain ⟨entry, inside, is, name⟩ :=
        (unit.tabled.names _ _).mp (after.found (List.mem_append_left others member))
      rw [← name]
      exact .named inside (by rw [key, is])
  | written code => exact .written code

/-- The parts of data that can be quoted can be quoted. -/
theorem Image.Quotable.part (quotable : image.Quotable datum) {part : Value}
    (inside : part ∈ image.heap.parts datum) : image.Quotable part := by
  cases quotable with
  | nil | number | string | character | symbol => cases inside
  | cons bound car cdr =>
      rcases List.mem_cons.mp inside with rfl | inside
      · exact car
      · exact List.mem_singleton.mp inside ▸ cdr
  | vector bound items => exact items part inside

theorem Image.Quotable.reaches {part : Value} (quotable : image.Quotable datum)
    (path : Relation.ReflTransGen (UnmadePart image.heap entries) part datum) :
    image.Quotable part := by
  induction path using Relation.ReflTransGen.head_induction_on with
  | refl => exact quotable
  | head step _ ih => exact ih.part step.2

/-- The unit of a QUOTE has the literals of its datum. -/
theorem quote_unit {u : CompileState} (standing : Standing .toplevel s)
    (isQuote : IsForm s.image.heap .quote [datum] form)
    (compiled : compileToplevel (compileWithin (depth + 1)) form s = .ok program u) :
    ∃ last entries expr, UnitOf s form (depth + 1) program last entries expr ∧
      (∀ entry ∈ entries, entry.image = s.image) ∧ Reaches s.image.heap [] [datum] entries := by
  obtain ⟨expr, last, ended, rfl⟩ := compileToplevel_ok compiled
  have start := tabled_startUnit standing
  have isQuote' : IsForm (startUnit s).image.heap .quote [datum] form := isQuote
  have literal_ : literalWithin s.image.heap.size datum (startUnit s) = .ok expr last := by
    rw [← ended, compileWithin_special isQuote']
    rfl
  obtain ⟨entries, makes, known⟩ := (literalWithin_hoists _ datum).after _ [] start
  obtain ⟨reaches, -⟩ := known expr last literal_
  rw [stateAfter_ok literal_] at makes
  exact ⟨last, entries, expr, ⟨ended, isUnit_of_ended standing ended makes.tabled⟩, makes.made,
    reaches⟩

/-- A datum that can be quoted is compiled, unless names are used up. -/
theorem quote_compiles (isQuote : IsForm s.image.heap .quote [datum] form)
    (quotable : s.image.Quotable datum) {e : CompileError} {u : CompileState}
    (failed : compileToplevel (compileWithin (depth + 1)) form s = .error e u) :
    e = .outOfSteps := by
  unfold compileToplevel at failed
  have quoted : Concludes s.image (compileWithin (depth + 1) .toplevel form (startUnit s)) := by
    have isQuote' : IsForm (startUnit s).image.heap .quote [datum] form := isQuote
    rw [compileWithin_special isQuote']
    exact literal_expresses quotable (startUnit s) rfl
  cases fresh : onCounters Counters.freshUnit s with
  | error e t =>
      rw [bind_failed fresh] at failed
      cases failed
      unfold onCounters at fresh
      dsimp only at fresh
      split at fresh <;> cases fresh
      rfl
  | ok _ t =>
      rw [bind_ended fresh] at failed
      obtain ⟨-, -, rfl⟩ := onCounters_ok fresh
      cases ran : compileWithin (depth + 1) .toplevel form (startUnit s) with
      | ok expr last =>
          have done : inFreshUnit (compileWithin (depth + 1) .toplevel form)
              { s with counters := (Counters.freshUnit s.counters).2 } =
                .ok (expr, last.literals) { last with literals := s.literals } := by
            rw [startUnit] at ran
            rw [inFreshUnit, ran]
          rw [bind_ended done] at failed
          cases failed
      | error e last =>
          have done : inFreshUnit (compileWithin (depth + 1) .toplevel form)
              { s with counters := (Counters.freshUnit s.counters).2 } =
                .error e { last with literals := s.literals } := by
            rw [startUnit] at ran
            rw [inFreshUnit, ran]
          rw [bind_failed done] at failed
          rw [ran] at quoted
          cases failed
          cases quoted
          rfl

/-- What the program of a QUOTE gives is a copy of the datum, which no symbol was made for. -/
theorem quote_runs {u : CompileState} (standing : Standing .toplevel s)
    (wellFormed : s.image.symbols.WellFormed)
    (isQuote : IsForm s.image.heap .quote [datum] form) (quotable : s.image.Quotable datum)
    (compiled : compileToplevel (compileWithin (depth + 1)) form s = .ok program u)
    (ordered : Ordered i.heap) (searchable : i.symbols.Searchable)
    (kept : s.image.symbols.Keeps i.symbols) (turns : Nat) :
    ∃ copies value later, OneToOne copies ∧ runWithin (turns + 1) program i = .ok value later ∧
      s.image.heap.Copied copies later.heap datum value ∧ later.symbols = i.symbols := by
  obtain ⟨last, entries, expr, unit, images, reaches⟩ := quote_unit standing isQuote compiled
  have denotes := unit.unit.quoted standing (unit.quotedIn isQuote)
  have found : ∀ entry ∈ entries, entry.FoundIn i.symbols := by
    intro entry member id key
    obtain ⟨_, is, path⟩ := reaches.within entry member
    rw [List.mem_singleton.mp is, key] at path
    have symbol := quotable.reaches path
    rw [images entry member]
    cases symbol with
    | symbol known _ => exact ⟨⟨known, wellFormed, kept⟩, searchable⟩
  obtain ⟨made, j, runs⟩ := unit.unit.runs ordered found turns
  have active := runs.head.prepares.active (unitImage_active ordered)
  obtain ⟨value, later, ran, touches, isValue⟩ :=
    (runs.head.readied active).eval (callWithin (turns + 1)) (turns + 1) denotes
  have copied := runs.head.copied unit.unit.tabled.inOrder
    (fun entry member => by rw [Hoisted.parts, images entry member]) quotable denotes isValue
  exact ⟨_, value, later, runs.head.oneToOne, runs.run.trans ran, copied.kept touches.keeps,
    touches.prepares.symbols.trans runs.head.prepares.symbols⟩

/-- Quoted data survives hoisting. The program of a QUOTE gives a copy of its datum, with the
identical symbols: what is reached along several paths has one copy, and distinct objects have
distinct ones. And in the run of the unit that any form is compiled to, there is one copy for each
cons and vector that the QUOTEs in the form reach, made before all else: every evaluation of one of
these QUOTEs gives the copy of its datum, the same object each time and in each of them, in which the
copies of its parts stand. -/
theorem quoted_data_survives_hoisting (standing : Standing .toplevel s)
    (wellFormed : s.image.symbols.WellFormed) (form : Value) (depth : Nat) :
    (∀ datum, IsForm s.image.heap .quote [datum] form → s.image.Quotable datum →
      (∀ e u, compileToplevel (compileWithin (depth + 1)) form s = .error e u → e = .outOfSteps) ∧
      ∀ program u, compileToplevel (compileWithin (depth + 1)) form s = .ok program u →
        ∀ i turns, Ordered i.heap → i.symbols.Searchable → s.image.symbols.Keeps i.symbols →
          ∃ copies value later, OneToOne copies ∧
            runWithin (turns + 1) program i = .ok value later ∧
            s.image.heap.Copied copies later.heap datum value ∧ later.symbols = i.symbols) ∧
    ∀ program u, compileToplevel (compileWithin (depth + 1)) form s = .ok program u →
      ∃ last entries expr, UnitOf s form (depth + 1) program last entries expr ∧
        ∀ i turns, Ordered i.heap → (∀ entry ∈ entries, entry.FoundIn i.symbols) →
          ∃ made j, UnitRuns turns program entries expr i made j ∧
            OneToOne (CopiedAs entries made) ∧
            ∀ datum code, QuotedIn s last datum code → ∀ call turns k d,
              WithinUnit i.heap.scopes.size j k → Sees k.heap d i.heap.scopes.size →
              d < k.heap.scopes.size →
              ∃ value later, evalExpr call turns d code k = .ok value later ∧
                Touches d (fun _ => False) k later ∧
                (datum.IsObject → CopiedAs entries made datum value) ∧
                ∀ image : Image, image.Quotable datum →
                  (∀ entry ∈ entries, entry.parts = image.heap.parts entry.key.datum) →
                  image.heap.Copied (CopiedAs entries made) j.heap datum value := by
  refine ⟨fun datum isQuote quotable => ⟨fun e u failed => quote_compiles isQuote quotable failed,
    fun program u compiled i turns ordered searchable kept =>
      quote_runs standing wellFormed isQuote quotable compiled ordered searchable kept turns⟩, ?_⟩
  intro program u compiled
  obtain ⟨last, entries, expr, unit⟩ := unitOf_compiled standing compiled
  refine ⟨last, entries, expr, unit, fun i turns ordered found => ?_⟩
  obtain ⟨made, j, runs⟩ := unit.unit.runs ordered found turns
  refine ⟨made, j, runs, runs.head.oneToOne, fun datum code quoted call turns k d within sees bound => ?_⟩
  have denotes := unit.unit.quoted standing quoted
  obtain ⟨value, later, ran, touches, isValue⟩ := runs.eval call turns within sees bound denotes
  exact ⟨value, later, ran, touches, denotes.copied isValue, fun image quotable unchanged =>
    runs.head.copied unit.unit.tabled.inOrder unchanged quotable denotes isValue⟩

/-- `(QUOTE (#1=(1) . #1#))` -/
def sharedPair : List Cell :=
  [⟨.symbol SymbolId.quote, .cons 1⟩, ⟨.cons 2, .nil⟩, ⟨.cons 3, .cons 3⟩, ⟨.number 1, .nil⟩]

theorem initialSymbols_searchable : Image.initialSymbols.Searchable := by
  obtain ⟨ops, runs⟩ := SymbolTable.runs_initialSymbols
  exact ⟨(SymbolTable.initial_wellFormed.runs runs).1, by decide +kernel⟩

theorem quoted_data_survives_of_sharedPair : ∃ program u a b later,
    compileToplevel (compileWithin 1) (.cons 0) (CompileState.reading sharedPair) = .ok program u ∧
    runWithin 1 program (CompileState.reading sharedPair).image = .ok (.cons a) later ∧
    later.heap.cell a = ⟨.cons b, .cons b⟩ ∧ (later.heap.cell b).car = .number 1 ∧ a ≠ b := by
  have standing := CompileState.standing_reading sharedPair
  have isQuote : IsForm (CompileState.reading sharedPair).image.heap .quote [.cons 2] (.cons 0) :=
    ⟨0, rfl, rfl, rfl⟩
  have one : (CompileState.reading sharedPair).image.Quotable (.cons 3) :=
    .cons (by decide) (.number 1) .nil
  have ends : succeeds (compileToplevel (compileWithin 1) (.cons 0))
      (CompileState.reading sharedPair) = true := by decide +kernel
  obtain ⟨program, u, compiled⟩ := ok_of_succeeds ends
  obtain ⟨-, runs⟩ := (quoted_data_survives_hoisting standing initialSymbols_searchable.wellFormed
    (.cons 0) 0).1 _ isQuote (.cons (by decide) one one)
  obtain ⟨copies, value, later, oneToOne, ran, copied, -⟩ := runs program u compiled _ 0
    standing.sparing.ordered initialSymbols_searchable (.refl _)
  obtain ⟨a, rfl, whole, car, cdr⟩ := copied.ofCons
  obtain ⟨b, first, copy, number, -⟩ := car.ofCons
  obtain ⟨b', second, copy', -, -⟩ := cdr.ofCons
  cases oneToOne.unique copy copy'
  have isOne : (later.heap.cell b).car = .number 1 := by
    change Heap.Copied _ _ _ (.number 1) _ at number
    generalize (later.heap.cell b).car = x at number ⊢
    cases number
    rfl
  refine ⟨program, u, a, b, later, compiled, ran, ?_, isOne, ?_⟩
  · exact congrArg₂ Cell.mk first second
  · rintro rfl
    cases oneToOne.distinct whole copy

end Units

end LispScript
