import LispScript.Proofs.Sessions

/-!
Histories of sessions: what the owner of a session asks of it, one request after the other, whether it
is answered or refused. No history leads to code that is at a loss.
-/

namespace LispScript

open Script Machine Discipline

section Histories

/-- What the owner of a session can ask of it, or make of the values it was given. -/
inductive Request where
  | readAll (text : String)
  | evalText (text : String)
  | compileText (text : String)
  | eval (form : Value)
  | compile (form : Value)
  | expandOnce (form : Value)
  | expand (form : Value)
  | cons (car cdr : Value)
  | vector (items : List Value)

namespace Request

/-- The values that the owner brings along. -/
def values : Request → List Value
  | readAll _ | evalText _ | compileText _ => []
  | eval form | compile form | expandOnce form | expand form => [form]
  | cons car cdr => [car, cdr]
  | vector items => items

def perform : Request → SessionStep (List Value)
  | readAll text => Session.readAll text
  | evalText text => Session.evalText text
  | compileText text => do
      let _ ← Session.compileText text
      return []
  | eval form => Session.eval form
  | compile form => do
      let _ ← Session.compile form
      return []
  | expandOnce form => do return (← Session.expandOnce? form).toList
  | expand form => do return [(← Session.expand form).1]
  | cons car cdr => do return [← Session.compiling (Compiler.newCons car cdr)]
  | vector items => do return [← Session.running (newVector items)]

end Request

/-- The values that need no object of the session. -/
def Value.IsAtom : Value → Prop
  | .nil | .number _ | .character _ | .string _ _ | .package _ => True
  | .symbol id => id ≠ SymbolId.nil
  | _ => False

/-- A session that came about in some way, with the values that its owner was given. -/
inductive History : List Value → Session → Prop where
  | created (options : SessionOptions) (created : Session.create options = .ok session) :
      History [] session
  | answered (before : History held session) (request : Request)
      (owned : ∀ value ∈ request.values, value ∈ held ∨ value.IsAtom)
      (answered : request.perform session = .ok values later) : History (held ++ values) later
  | refused (before : History held session) (request : Request)
      (owned : ∀ value ∈ request.values, value ∈ held ∨ value.IsAtom)
      (refused : request.perform session = .error e later) : History held later

variable {W : World} {held : List Value} {session : Session}

theorem Value.IsAtom.datum {value : Value} (atom : value.IsAtom) : W.Datum value := by
  cases value <;> trivial

theorem owned_data {request : Request} (data : W.Data held)
    (owned : ∀ value ∈ request.values, value ∈ held ∨ value.IsAtom) :
    W.Data request.values :=
  fun value member => (owned value member).elim (data value) Value.IsAtom.datum

/-- Whatever is asked for, the session stays in order. -/
theorem Request.orderly (request : Request) (data : W.Data request.values) :
    Orderly W request.perform World.Data := by
  cases request with
  | readAll text => exact .readAll text
  | evalText text => exact .evalText text
  | compileText text => exact (Orderly.compileText text).bind fun _ _ _ _ => .gives nofun
  | eval form => exact .eval (data form (by simp [Request.values]))
  | compile form =>
      exact (Orderly.compile (data form (by simp [Request.values]))).bind
        fun _ _ _ _ => .gives nofun
  | expandOnce form =>
      refine (Orderly.expandOnce (data form (by simp [Request.values]))).bind
        fun _ expansion? _ datum => .gives fun value member => ?_
      exact datum value (by simpa using member)
  | expand form =>
      refine (Orderly.expand (data form (by simp [Request.values]))).bind
        fun _ result _ datum => .gives fun value member => ?_
      exact List.mem_singleton.mp member ▸ datum
  | cons car cdr =>
      have built (s : CompileState) (ok : CompilerOk W s) :=
        Built.newCons ok (data car (by simp [Request.values])) (data cdr (by simp [Request.values]))
      refine (Orderly.compiling built fun _ _ _ datum => datum).bind
        fun _ result _ datum => .gives fun value member => ?_
      exact List.mem_singleton.mp member ▸ datum
  | vector items =>
      refine (Orderly.running fun _ describes _ => Safe.newVector describes data).bind
        fun _ result _ datum => .gives fun value member => ?_
      exact List.mem_singleton.mp member ▸ datum

theorem Session.created_inOrder {options : SessionOptions}
    (created : Session.create options = .ok session) :
    ∃ W, CompilerOk W session.state := by
  have bare := CompilerOk.initial options.features options.maxDepth
  unfold Session.create at created
  dsimp only at created
  split at created
  · have proceeds := Orderly.evalText preludeText _ bare
    split at created
    · rename_i values later ended
      rw [ended] at proceeds
      cases proceeds with
      | ok W extends_ ok held =>
          cases created
          exact ⟨W, ok⟩
    · cases created
  · cases created
    exact ⟨_, bare⟩

/-- A session is in order at any time, and its owner holds data. -/
theorem History.inOrder (history : History held session) :
    ∃ W, CompilerOk W session.state ∧ W.Data held := by
  induction history with
  | created options created =>
      obtain ⟨W, ok⟩ := Session.created_inOrder created
      exact ⟨W, ok, World.data_nil⟩
  | answered before request owned answered ih =>
      obtain ⟨W, ok, data⟩ := ih
      have proceeds := request.orderly (owned_data data owned) _ ok
      rw [answered] at proceeds
      cases proceeds with
      | ok W' extends_ ok' given => exact ⟨W', ok', (data.extended extends_).append given⟩
  | refused before request owned refused ih =>
      obtain ⟨W, ok, data⟩ := ih
      have proceeds := request.orderly (owned_data data owned) _ ok
      rw [refused] at proceeds
      cases proceeds with
      | error W' extends_ ok' within => exact ⟨W', ok', data.extended extends_⟩

end Histories

section Faults

/-- Whenever a compiled function was called, it was given a routine that takes its values: its first
parameter is `values`, and a variable of that name, in whichever scope, holds one. -/
structure Image.PassesAcceptors (image : Image) : Prop where
  parameters : ∀ function ∈ image.heap.functions, ∀ params body scope,
    function.callable = .closure params body scope → params.head? = some "values"
  values : ∀ scope ∈ image.heap.scopes, ∀ value, scope.vars["values"]? = some value →
    value = acceptorValue false ∨ value = acceptorValue true

variable {W : World} {held : List Value} {session later : Session} {image : Image}

theorem nativeAddresses : Native.all.map Image.nativeAddress = List.range firstFunction := by
  decide

/-- The functions of the support object are no closures. -/
theorem Discipline.World.Describes.native (describes : W.Describes image) {a : Nat}
    (native : a < firstFunction) :
    ∃ n, (image.heap.functions.getD a default).callable = .native n := by
  have member := List.mem_range.mpr native
  rw [← nativeAddresses] at member
  obtain ⟨n, -, rfl⟩ := List.mem_map.mp member
  exact ⟨n, describes.functions.natives n⟩

theorem Discipline.World.Describes.passesAcceptors (describes : W.Describes image) :
    image.PassesAcceptors := by
  constructor
  · intro function member params body scope callable
    obtain ⟨a, bound, rfl⟩ := Array.mem_iff_getElem.mp member
    have found : image.heap.functions.getD a default = image.heap.functions[a] :=
      getD_of_getElem? (Array.getElem?_eq_getElem bound)
    by_cases native : a < firstFunction
    · obtain ⟨n, isNative⟩ := describes.native native
      rw [found, callable] at isNative
      cases isNative
    · have ok := describes.functions.callables a (Nat.not_lt.mp native) bound id
      rw [found, callable] at ok
      obtain ⟨frame, hosts, rfl, -⟩ := ok
      rfl
  · intro scope member value holds
    obtain ⟨b, bound, rfl⟩ := Array.mem_iff_getElem.mp member
    have counted : b < W.scopes.length := describes.scopeCount ▸ bound
    have ok := describes.scopes b _ (List.getElem?_eq_getElem counted)
    rw [getD_of_getElem? (Array.getElem?_eq_getElem bound)] at ok
    obtain ⟨manyValues, rfl⟩ := ok.acceptor value holds
    cases manyValues with
    | false => exact .inl rfl
    | true => exact .inr rfl

theorem Session.create_withinLanguage {options : SessionOptions} {e : SessionError}
    (failed : Session.create options = .error e) :
    WithinLanguage e := by
  unfold Session.create at failed
  dsimp only at failed
  split at failed
  · have proceeds := Orderly.evalText preludeText _
      (CompilerOk.initial options.features options.maxDepth)
    split at failed
    · cases failed
    · rename_i e' later ended
      rw [ended] at proceeds
      cases failed
      cases proceeds with
      | error W extends_ ok within => exact within
  · cases failed

theorem compiled_closed {form : Value} {program : Program} (ok : CompilerOk W session.state)
    (data : W.Data held) (owned : form ∈ held ∨ form.IsAtom)
    (compiled : Session.compile form session = .ok program later) :
    IsClosed program := by
  have proceeds := Orderly.compile (owned.elim (data form) Value.IsAtom.datum) session ok
  rw [compiled] at proceeds
  cases proceeds with
  | ok _ _ _ closed => exact closed

theorem Discipline.CompilerOk.runs {program : Program} (ok : CompilerOk W session.state)
    (closed : IsClosed program) (steps : Nat) :
    Safe W session.image (runWithin steps program) fun W' => W'.Has .many := by
  obtain ⟨code, same, derivable⟩ := closed
  exact Safe.program steps ok.describes ok.someScope same derivable

/-- However a safe run ends, calls were made as they should be. -/
theorem Discipline.Safe.withinLanguage {run : Run α} {good : World → α → Prop}
    (safe : Safe W image run good) :
    (∀ a ended, run image = .ok a ended → ended.PassesAcceptors) ∧
      ∀ interrupt ended, run image = .error interrupt ended →
        ended.PassesAcceptors ∧ IsLanguage interrupt := by
  refine ⟨fun a ended run_eq => ?_, fun interrupt ended run_eq => ?_⟩
  · rw [Safe, run_eq] at safe
    cases safe with
    | ok W' _ _ describes _ _ => exact describes.passesAcceptors
  · rw [Safe, run_eq] at safe
    cases safe with
    | thrown W' _ _ describes _ _ _ => exact ⟨describes.passesAcceptors, trivial⟩
    | failed W' _ _ describes isLanguage => exact ⟨describes.passesAcceptors, isLanguage⟩
    | outOfSteps W' _ _ describes => exact ⟨describes.passesAcceptors, trivial⟩

/-- Compiled code is never at a loss, whatever the session went through before. No request ends in a
fault of the host, at compile time or at run time; a program runs without one in any session, for as
many steps as it may take; and compiled functions are called as they expect to be. -/
theorem compiled_code_without_faults :
    (∀ options e, Session.create options = .error e → WithinLanguage e) ∧
    ∀ held session, History held session →
      session.image.PassesAcceptors ∧
      (∀ (request : Request) e later, (∀ value ∈ request.values, value ∈ held ∨ value.IsAtom) →
        request.perform session = .error e later → WithinLanguage e) ∧
      ∀ form program later, (form ∈ held ∨ form.IsAtom) →
        Session.compile form session = .ok program later →
        ∀ others other, History others other → ∀ steps,
          (∀ value ended, runWithin steps program other.image = .ok value ended →
            ended.PassesAcceptors) ∧
          ∀ interrupt ended, runWithin steps program other.image = .error interrupt ended →
            ended.PassesAcceptors ∧ IsLanguage interrupt := by
  refine ⟨fun options e failed => Session.create_withinLanguage failed,
    fun held session history => ?_⟩
  obtain ⟨W, ok, data⟩ := history.inOrder
  refine ⟨ok.describes.passesAcceptors, fun request e later owned failed => ?_,
    fun form program later owned compiled others other history' steps => ?_⟩
  · have proceeds := request.orderly (owned_data data owned) _ ok
    rw [failed] at proceeds
    cases proceeds with
    | error _ _ _ within => exact within
  · obtain ⟨W', ok', -⟩ := history'.inOrder
    exact (ok'.runs (compiled_closed ok data owned compiled) steps).withinLanguage

/-- A new session without prelude refuses a lone `)` and compiles the empty list, and its code runs. -/
theorem compiled_code_without_faults_of_nil :
    ∃ session program later, Session.create { prelude := false } = .ok session ∧
      Session.compile .nil session = .ok program later ∧
      (∃ e refused, (Request.readAll ")").perform session = .error e refused ∧ WithinLanguage e) ∧
      ∃ value ended, runWithin 1 program session.image = .ok value ended ∧
        ended.PassesAcceptors := by
  have history : History [] (Session.bare ["HOSTLISP", "COMMON-LISP"] 10000) :=
    .created { prelude := false } rfl
  obtain ⟨-, refuses, runs⟩ := compiled_code_without_faults.2 [] _ history
  have refused : ∃ e later, (Request.readAll ")").perform
      (Session.bare ["HOSTLISP", "COMMON-LISP"] 10000) = .error e later := ⟨_, _, rfl⟩
  obtain ⟨e, closed, refused⟩ := refused
  have compiled : ∃ program later,
      Session.compile .nil (Session.bare ["HOSTLISP", "COMMON-LISP"] 10000) = .ok program later :=
    ⟨_, _, rfl⟩
  obtain ⟨program, later, compiled⟩ := compiled
  have ran : ∃ value ended, runWithin 1 program
      (Session.bare ["HOSTLISP", "COMMON-LISP"] 10000).image = .ok value ended := by
    cases compiled
    exact ⟨_, _, rfl⟩
  obtain ⟨value, ended, ran⟩ := ran
  exact ⟨_, program, later, rfl, compiled, ⟨e, closed, refused,
      refuses _ e closed (fun _ member => (List.not_mem_nil member).elim) refused⟩,
    value, ended, ran,
    (runs .nil program later (.inr trivial) compiled [] _ history 1).1 value ended ran⟩

end Faults

end LispScript
