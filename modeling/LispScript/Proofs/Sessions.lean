import LispScript.Proofs.Compilation
import LispScript.Proofs.Intake
import LispScript.Proofs.Registry
import LispScript.Proofs.Standing
import LispScript.Session

/-!
Sessions from their beginning on. The first image is described by a world of its own, and whatever a
session reads, compiles or runs leads to a state that is in order again.
-/

namespace LispScript.Discipline

open Script Machine Compiler

section Symbols

variable {W : World} {table : SymbolTable}

theorem World.SymbolsOk.internAllStandard (ok : W.SymbolsOk table) (names : List String) :
    W.SymbolsOk (table.internAllStandard names) := by
  induction names generalizing table with
  | nil => exact ok
  | cons name rest ih => exact ih (ok.internStandard name)

theorem World.symbolsOk_standard (W : World) : W.SymbolsOk SymbolTable.standard := by
  have withNil : W.SymbolsOk (SymbolTable.bare.internStandard "NIL").2 := by
    refine ⟨fun symbol member => ?_, ⟨_, rfl, rfl⟩, rfl, by decide +kernel, rfl,
      fun package member => ?_⟩
    · obtain rfl := Array.mem_singleton.mp member
      exact ⟨nofun, nofun, trivial⟩
    · have empty : ∀ package ∈ SymbolTable.bare.packages, KnowsNil package := by
        intro package member
        have packages : SymbolTable.bare.packages = #[
            { name := "KEYWORD", nicknames := [] },
            { name := "COMMON-LISP", nicknames := ["CL"] },
            { name := "COMMON-LISP-USER", nicknames := ["CL-USER"],
              uses := [PackageId.commonLisp] }] := rfl
        rw [packages] at member
        simp only [List.mem_toArray, List.mem_cons, List.not_mem_nil, or_false] at member
        rcases member with rfl | rfl | rfl <;> exact knowsNil_empty rfl rfl
      have entered : ∀ package ∈ (SymbolTable.bare.intern "NIL" PackageId.commonLisp).2.packages,
          KnowsNil package := by
        intro package member
        have grown : (SymbolTable.bare.intern "NIL" PackageId.commonLisp).2.packages =
            SymbolTable.bare.packages.modify PackageId.commonLisp.index fun package =>
              { package with internals := package.internals.insert "NIL" SymbolId.nil } := rfl
        rcases mem_modify (grown ▸ member) with old | ⟨before, old, rfl⟩
        · exact empty package old
        · exact (empty before old).insertInternal fun _ => rfl
      have promoted : (SymbolTable.bare.internStandard "NIL").2.packages =
          (SymbolTable.bare.intern "NIL" PackageId.commonLisp).2.packages.modify
            PackageId.commonLisp.index fun package =>
              { package with
                internals := package.internals.erase "NIL"
                externals := package.externals.insert "NIL" SymbolId.nil } := rfl
      rcases mem_modify (promoted ▸ member) with old | ⟨before, old, rfl⟩
      · exact entered package old
      · exact ((entered before old).erase _).insertExternal fun _ => rfl
  have initial : W.SymbolsOk SymbolTable.initial := by
    refine ((withNil.internStandard "T").setValue _ fun value held => ?_).setValue _
      fun value held => ?_
    · obtain rfl := Option.some.inj held
      trivial
    · obtain rfl := Option.some.inj held
      exact show SymbolId.t ≠ SymbolId.nil by decide
  have keywords (names : List String) (table : SymbolTable) (ok : W.SymbolsOk table) :
      W.SymbolsOk (names.foldl (fun table name => (table.internKeyword name).2) table) := by
    induction names generalizing table with
    | nil => exact ok
    | cons name rest ih => exact ih _ (ok.intern name _)
  exact ((keywords _ _ (initial.internAllStandard _)).internAllStandard _).internAllStandard _

end Symbols

section Images

/-- The world of an image in which nothing was read yet. -/
def World.initial : World := ⟨[fun _ => none], [], firstFunction + Primitive.all.length, 0⟩

theorem initialHeap_functions :
    Image.initialHeap.functions.size = firstFunction + Primitive.all.length := by
  simp only [Image.initialHeap, firstFunction, Array.size_append, List.size_toArray,
    List.length_map]

theorem primitiveAddress_datum (p : Primitive) :
    World.initial.Datum (.function (Image.primitiveAddress p)) := by
  obtain ⟨bound, -⟩ := List.getElem?_eq_some_iff.mp (Image.primitiveIndex p)
  exact ⟨Nat.le_add_right _ _, Nat.add_lt_add_left bound _⟩

theorem World.symbolsOk_initial : World.initial.SymbolsOk Image.initialSymbols := by
  have all (ps : List Primitive) (table : SymbolTable) (ok : World.initial.SymbolsOk table) :
      World.initial.SymbolsOk (ps.foldl (fun table p => table.setFunction p.symbol
        (some (.function (Image.primitiveAddress p)))) table) := by
    induction ps generalizing table with
    | nil => exact ok
    | cons p rest ih =>
        refine ih _ (ok.setFunction _ fun value held => ?_)
        obtain rfl := Option.some.inj held
        exact primitiveAddress_datum p
  exact all _ _ (World.initial.symbolsOk_standard)

/-- No function has properties before any code runs, and each is built in. -/
theorem initialHeap_function (a : Nat) :
    (Image.initialHeap.functions.getD a default).properties = [] ∧
      (a < Image.initialHeap.functions.size → firstFunction ≤ a →
        ∃ p, (Image.initialHeap.functions.getD a default).callable = .primitive p) := by
  rw [Array.getD_eq_getD_getElem?]
  cases found : Image.initialHeap.functions[a]? with
  | none =>
      have outside := Array.getElem?_eq_none_iff.mp found
      exact ⟨rfl, fun bound => (Nat.not_le_of_lt bound outside).elim⟩
  | some function =>
      simp only [Image.initialHeap] at found
      by_cases native : a < firstFunction
      · rw [Array.getElem?_append_left (by simpa [firstFunction] using native)] at found
        simp only [List.getElem?_toArray, List.getElem?_map, Option.map_eq_some_iff] at found
        obtain ⟨n, -, rfl⟩ := found
        exact ⟨rfl, fun _ low => (Nat.not_le_of_lt native low).elim⟩
      · rw [Array.getElem?_append_right (by simpa [firstFunction] using native)] at found
        simp only [List.getElem?_toArray, List.getElem?_map, Option.map_eq_some_iff] at found
        obtain ⟨p, -, rfl⟩ := found
        exact ⟨rfl, fun _ _ => ⟨p, rfl⟩⟩

theorem World.functionsOk_initial :
    World.initial.FunctionsOk (fun _ => False) Image.initialHeap.functions := by
  have natives := (Machine.Ordered.initial #[]).natives
  have all := initialHeap_function
  simp only [Heap.function] at natives
  generalize Image.initialHeap.functions = functions at natives all ⊢
  refine ⟨natives, fun a _ entry member => ?_, fun a low bound _ => ?_⟩
  · rw [(all a).1] at member
    cases member
  · obtain ⟨p, callable⟩ := (all a).2 bound low
    rw [callable]
    trivial

/-- An image in which nothing was read yet is as its world tells. -/
theorem World.describes_initial (depthLimit : Nat) :
    World.initial.Describes (Image.initial depthLimit) where
  scopeCount := rfl
  vectorCount := rfl
  functionCount := initialHeap_functions.symm
  transferCount := rfl
  cells cell member := (Array.not_mem_empty cell member).elim
  bundles bundle member := (Array.not_mem_empty bundle member).elim
  vectors a role found := by cases found
  functions := World.functionsOk_initial
  transfers transfer member := (Array.not_mem_empty transfer member).elim
  scopes b layout found := by
    cases b with
    | zero =>
        cases found
        exact ⟨nofun, fun value held => by simp [Image.initial, Image.initialHeap] at held,
          nofun, fun name value held => by simp [Image.initial, Image.initialHeap] at held⟩
    | succ b => cases found
  symbols := World.symbolsOk_initial

/-- The global bindings that there are from the start are constants. -/
theorem globals_initial {key : Nat} {binding : Binding}
    (found : Bindings.initial.globals[key]? = some binding) :
    (binding.reference = .constant .nil ∨ binding.reference = .constant .t) ∧
      binding.declarations < Bindings.initial.declarations.size := by
  have inserted : Bindings.initial.globals =
      (({} : Bindings).globals.insert (globalKey SymbolId.t .vars)
        ⟨.ofSymbol SymbolId.t, .vars, .constant .t, 0⟩).insert
        (globalKey SymbolId.nil .vars) ⟨.ofSymbol SymbolId.nil, .vars, .constant .nil, 1⟩ := rfl
  rw [inserted, Std.TreeMap.getElem?_insert, Std.TreeMap.getElem?_insert] at found
  split at found
  · cases found
    exact ⟨.inl rfl, by decide⟩
  · split at found
    · cases found
      exact ⟨.inr rfl, by decide⟩
    · simp at found

theorem CompilerOk.initial (features : List String) (depthLimit : Nat) :
    CompilerOk World.initial (Session.bare features depthLimit).state where
  describes := World.describes_initial depthLimit
  someScope := nofun
  bounded := ⟨Nat.zero_le _, Nat.zero_le _, Nat.zero_le _, Nat.zero_le _⟩
  globals key binding found := by
    obtain ⟨reference, known⟩ := globals_initial found
    rcases reference with isNil | isT
    · exact ⟨⟨known, isNil ▸ trivial⟩, isNil ▸ trivial⟩
    · exact ⟨⟨known, isT ▸ show SymbolId.t ≠ SymbolId.nil by decide⟩, isT ▸ trivial⟩
  literals := ⟨[], .nil, rfl, fun key name found => by simp [Session.bare] at found, nofun⟩

end Images

section Steps

variable {W : World} {good : World → α → Prop} {session : Session}

/-- Where an error of a session tells of the failure of a run, the run stayed within the language. -/
def WithinLanguage : SessionError → Prop
  | .reader _ => True
  | .compiler cause => Explained cause
  | .runtime cause => FromLanguage cause

/-- How a step of a session ends. -/
inductive Proceeds (W : World) (good : World → α → Prop) :
    EStateM.Result SessionError Session α → Prop where
  | ok (W' : World) (extends_ : W.Extends W') (ok : CompilerOk W' later.state) (held : good W' a) :
      Proceeds W good (.ok a later)
  | error (W' : World) (extends_ : W.Extends W') (ok : CompilerOk W' later.state)
      (within : WithinLanguage e) : Proceeds W good (.error e later)

/-- A step that keeps a session in order. -/
def Orderly (W : World) (step : SessionStep α) (good : World → α → Prop) : Prop :=
  ∀ session, CompilerOk W session.state → Proceeds W good (step session)

theorem Proceeds.since {W' : World} {result : EStateM.Result SessionError Session α}
    (proceeds : Proceeds W' good result) (extends_ : W.Extends W') :
    Proceeds W good result := by
  cases proceeds with
  | ok W'' more ok held => exact .ok W'' (extends_.trans more) ok held
  | error W'' more ok within => exact .error W'' (extends_.trans more) ok within

theorem Orderly.bind {step : SessionStep α} {rest : α → SessionStep β} {last : World → β → Prop}
    (orderly : Orderly W step good)
    (onward : ∀ W' a, W.Extends W' → good W' a → Orderly W' (rest a) last) :
    Orderly W (step >>= rest) last := by
  intro session ok
  have first := orderly session ok
  change Proceeds W last (EStateM.bind step rest session)
  unfold EStateM.bind
  cases step_eq : step session with
  | ok a later =>
      rw [step_eq] at first
      cases first with
      | ok W' extends_ ok' held => exact (onward W' a extends_ held later ok').since extends_
  | error e later =>
      rw [step_eq] at first
      cases first with
      | error W' extends_ ok' within => exact .error W' extends_ ok' within

theorem Orderly.gives {a : α} (held : good W a) : Orderly W (pure a) good :=
  fun _ ok => .ok W (World.Extends.refl W) ok held

theorem Orderly.reading {step : List String → Read α} (text : List Char)
    (reads : ∀ features, Reads W (step features) good) :
    Orderly W (Session.reading step text) fun W' result => good W' result.1 := by
  intro session ok
  have takes := reads session.features ⟨text, session.state.image⟩ ok.describes
  unfold Session.reading
  cases step_eq : step session.features ⟨text, session.state.image⟩ with
  | ok a later =>
      rw [step_eq] at takes
      cases takes with
      | ok W' extends_ describes held =>
          exact .ok W' extends_ (ok.withImage extends_ describes).2 held
  | error e later =>
      rw [step_eq] at takes
      cases takes with
      | error W' extends_ describes =>
          exact .error W' extends_ (ok.withImage extends_ describes).2 trivial

theorem Orderly.compiling {step : Compile α} {post : World → CompileState → α → Prop}
    (built : ∀ s, CompilerOk W s → Built W s step post)
    (held : ∀ W' s a, post W' s a → good W' a) :
    Orderly W (Session.compiling step) good := by
  intro session ok
  have built := built session.state ok
  unfold Session.compiling
  unfold Built at built
  cases step_eq : step session.state with
  | ok a later =>
      rw [step_eq] at built
      cases built with
      | ok W' further ok' known => exact .ok W' further.extends_ ok' (held W' later a known)
  | error e later =>
      rw [step_eq] at built
      cases built with
      | error W' further ok' explained => exact .error W' further.extends_ ok' explained

theorem Orderly.running {run : Run α}
    (safe : ∀ image, W.Describes image → W.scopes ≠ [] → Safe W image run good) :
    Orderly W (Session.running run) good := by
  intro session ok
  have safe := safe session.state.image ok.describes ok.someScope
  unfold Session.running
  cases run_eq : run session.state.image with
  | ok a later =>
      rw [Safe, run_eq] at safe
      cases safe with
      | ok W' extends_ leads describes settled held =>
          exact .ok W' extends_ (ok.withImage extends_ describes).2 held
  | error interrupt later =>
      rw [Safe, run_eq] at safe
      cases safe with
      | thrown W' extends_ leads describes fresh signal settled =>
          exact .error W' extends_ (ok.withImage extends_ describes).2
            ((show IsLanguage (.thrown (.transfer _)) from trivial).asError later)
      | failed W' extends_ leads describes isLanguage =>
          exact .error W' extends_ (ok.withImage extends_ describes).2
            ((show IsLanguage (.failed _) from isLanguage).asError later)
      | outOfSteps W' extends_ leads describes =>
          exact .error W' extends_ (ok.withImage extends_ describes).2
            ((show IsLanguage .outOfSteps from trivial).asError later)

end Steps

section Requests

variable {W : World} {form : Value}

/-- A program that needs nothing around it. -/
def IsClosed (program : Program) : Prop :=
  ∃ code, program = ⟨[.effect code]⟩ ∧ Derivable Frame.global (.expr code .many)

theorem Orderly.compile (datum : W.Datum form) :
    Orderly W (Session.compile form) fun _ program => IsClosed program :=
  .compiling (fun _ ok => Built.compileToplevel (CompilesForms.within ampleDepth) ok datum)
    fun _ _ _ closed => closed

theorem Orderly.runProgram {program : Program} (closed : IsClosed program) :
    Orderly W (Session.running (Machine.run program)) fun W' => W'.Has .many := by
  obtain ⟨code, same, derivable⟩ := closed
  exact .running fun _ describes some_ => Safe.program ampleSteps describes some_ same derivable

theorem Orderly.eval (datum : W.Datum form) :
    Orderly W (Session.eval form) World.Data := by
  refine (Orderly.compile datum).bind fun W₁ program _ closed => ?_
  refine (Orderly.runProgram closed).bind fun W₂ result _ many session ok => ?_
  exact .ok W₂ (World.Extends.refl W₂) ok (ok.describes.valuesOf_datum many)

theorem Orderly.readNext (text : List Char) :
    Orderly W (Session.readNext text) fun W' next? => ∀ next ∈ next?, W'.Datum next.1 := by
  refine (Orderly.reading text fun _ => Reads.read).bind fun W₁ result _ datum => .gives ?_
  intro next found
  obtain ⟨form, isForm, rfl⟩ := Option.map_eq_some_iff.mp found
  exact datum form isForm

/-- Whatever is done with the forms of a text, one after the other. -/
theorem Orderly.foldForms {step : α → Value → SessionStep α} {good : World → α → Prop}
    (orderly : ∀ W a form, good W a → W.Datum form → Orderly W (step a form) good)
    (stays : ∀ W W' a, W.Extends W' → good W a → good W' a)
    (count : Nat) {a : α} (held : good W a) (text : List Char) :
    Orderly W (Session.foldForms step count a text) good := by
  induction count generalizing W a text with
  | zero => exact .gives held
  | succ count ih =>
      rw [Session.foldForms]
      refine (Orderly.readNext text).bind fun W₁ next? further datum => ?_
      split
      · refine (orderly W₁ a _ (stays W W₁ a further held) (datum _ rfl)).bind
          fun W₂ b _ held => ih held _
      · exact .gives (stays W W₁ a further held)

theorem Orderly.evalText (text : String) : Orderly W (Session.evalText text) World.Data := by
  have nil : W.Data [.nil] := fun value member => List.mem_singleton.mp member ▸ trivial
  exact .foldForms (fun _ _ _ _ datum => .eval datum)
    (fun _ _ _ extends_ data => data.extended extends_) _ nil _

theorem Orderly.compileText (text : String) :
    Orderly W (Session.compileText text) fun _ _ => True := by
  refine .foldForms (fun W _ form _ datum => ?_) (fun _ _ _ _ _ => trivial) _ trivial _
  have rendered : Orderly W (Session.compileToText form) fun _ _ => True :=
    (Orderly.compile datum).bind fun _ _ _ _ => .gives trivial
  exact rendered.bind fun _ _ _ _ => .gives trivial

theorem envOk_toplevel (s : CompileState) : EnvOk W s Context.toplevel.env :=
  fun _ member => (List.not_mem_nil member).elim

theorem Orderly.expandOnce (datum : W.Datum form) :
    Orderly W (Session.expandOnce? form) fun W' expansion? =>
      ∀ expansion ∈ expansion?, W'.Datum expansion :=
  .compiling (fun _ ok => Built.expandOnce? ok (envOk_toplevel _) datum) fun _ _ _ held => held

theorem Orderly.expand (datum : W.Datum form) :
    Orderly W (Session.expand form) fun W' result => W'.Datum result.1 :=
  .compiling (fun _ ok => Built.expandWithin ok (envOk_toplevel _) _ _ datum) fun _ _ _ held => held

theorem Orderly.readAll (text : String) : Orderly W (Session.readAll text) World.Data :=
  (Orderly.reading text.toList fun _ => Reads.readAll).bind fun _ _ _ data => .gives data

end Requests

end LispScript.Discipline
