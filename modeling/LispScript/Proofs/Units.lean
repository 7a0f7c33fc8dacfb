import LispScript.Proofs.Literal

/-!
Units of compilation. A form is compiled as a program that depends on nothing compiled before it, and
what runs while other forms are compiled keeps to the discipline as all else does.
-/

namespace LispScript.Discipline

open Script Machine Compiler

section Running

variable {W : World} {s : CompileState}

/-- A run of the machine in the course of a compilation. -/
theorem Built.onMachine {α : Type} {run : Run α} {explain : RuntimeError → CompileError}
    {good : World → α → Prop} (ok : CompilerOk W s) (safe : Safe W s.image run good)
    (explained : ∀ cause, FromLanguage cause → Explained (explain cause)) :
    Built W s (Compiler.onMachine run explain) fun W' _ => good W' := by
  unfold Built Compiler.onMachine
  have language (interrupt : Interrupt) (isLanguage : IsLanguage interrupt) (image : Image) :
      Explained (explain (interrupt.asError image)) := explained _ (isLanguage.asError image)
  cases run_eq : run s.image with
  | ok a later =>
      rw [Safe, run_eq] at safe
      cases safe with
      | ok W' extends_ leads describes settled held =>
          obtain ⟨further, ok'⟩ := ok.withImage extends_ describes
          exact .ok W' further ok' held
  | error interrupt later =>
      rw [Safe, run_eq] at safe
      cases safe with
      | thrown W' extends_ leads describes fresh signal settled =>
          obtain ⟨further, ok'⟩ := ok.withImage extends_ describes
          exact .error W' further ok' (language (.thrown (.transfer _)) trivial _)
      | failed W' extends_ leads describes isLanguage =>
          obtain ⟨further, ok'⟩ := ok.withImage extends_ describes
          exact .error W' further ok' (language (.failed _) isLanguage _)
      | outOfSteps W' extends_ leads describes =>
          obtain ⟨further, ok'⟩ := ok.withImage extends_ describes
          exact .error W' further ok' (language .outOfSteps trivial _)

/-- The expansion of a form by a macro. -/
theorem Built.callExpander (ok : CompilerOk W s) (name : SymbolId) {expander form : Value}
    (function : W.Datum expander) (datum : W.Datum form) :
    Built W s (Compiler.callExpander name expander form) fun W' _ => W'.Datum := by
  refine Built.bind (Built.restItems? ok datum) fun W₁ s₁ args? further ok₁ data => ?_
  cases args? with
  | none => exact Built.malformed ok₁ _ _
  | some args =>
      refine Built.named (Built.onMachine ok₁ ?_ fun _ fromLanguage => fromLanguage)
      exact (callWithin_sound ampleSteps).language W₁ s₁.image false expander (form :: args)
        ok₁.describes (further.datum function)
        (World.data_cons.mpr ⟨further.datum datum, data args rfl⟩)

end Running

section Programs

variable {W : World} {s : CompileState} {compile : FormCompiler} {form : Value}

/-- The literals of a unit have no others before them. -/
theorem CompilerOk.freshUnit (ok : CompilerOk W s) : CompilerOk W { s with literals := {} } where
  describes := ok.describes
  someScope := ok.someScope
  bounded := ok.bounded
  globals key binding found := by
    obtain ⟨known, isGlobal⟩ := ok.globals key binding found
    exact ⟨⟨known.known, known.reference⟩, isGlobal⟩
  literals := ⟨[], .nil, rfl, fun key name found => by simp at found, nofun⟩

/-- After a unit the literals around it are in force again. -/
theorem CompilerOk.leaveUnit {W' : World} {s' : CompileState} (ok : CompilerOk W s)
    (further : Further W { s with literals := {} } W' s') (ok' : CompilerOk W' s') :
    Further W s W' { s' with literals := s.literals } ∧
      CompilerOk W' { s' with literals := s.literals } := by
  have leads : s.counters.Leads s'.counters := further.progress.counters
  refine ⟨⟨further.extends_, leads, further.progress.declarations, further.progress.used,
    fun _ member => member⟩, ok'.describes, ok'.someScope, ok'.bounded, fun key binding found => ?_,
    ?_⟩
  · obtain ⟨known, isGlobal⟩ := ok'.globals key binding found
    exact ⟨⟨known.known, known.reference⟩, isGlobal⟩
  · obtain ⟨entries, literals⟩ := ok.literals
    exact ⟨entries, literals.written, literals.initializers, literals.names,
      fun entry member => Nat.le_trans (literals.counted entry member) leads.literals⟩

theorem Built.inFreshUnit {α : Type} {step : Compile α} {post : World → CompileState → α → Prop}
    (ok : CompilerOk W s) (built : Built W { s with literals := {} } step post) :
    Built W s (Compiler.inFreshUnit step) fun W' _ result =>
      ∃ last, last.literals = result.2 ∧ CompilerOk W' last ∧ post W' last result.1 := by
  unfold Built Compiler.inFreshUnit
  cases run_eq : step { s with literals := {} } with
  | ok a s' =>
      rw [Built, run_eq] at built
      cases built with
      | ok W' further ok' held =>
          obtain ⟨onward, outer⟩ := ok.leaveUnit further ok'
          exact .ok W' onward outer ⟨s', rfl, ok', held⟩
  | error e s' =>
      rw [Built, run_eq] at built
      cases built with
      | error W' further ok' explained =>
          obtain ⟨onward, outer⟩ := ok.leaveUnit further ok'
          exact .error W' onward outer explained

/-- The frame in which the value of a unit is computed. -/
def Frame.unit (entries : List Entry) : Frame :=
  (Frame.global.inside.bind "values" (.acceptor true)).withLiterals entries

theorem literalName_ne_values (n : Nat) : literalName n ≠ "values" := by
  intro same
  exact literalName_unreserved n (same ▸ (by decide))

theorem Frame.unit_kinds {entries : List Entry} {name : String}
    (other : ∀ n, name ≠ literalName n) (name_ne : name ≠ "values") :
    (Frame.unit entries).kinds name = none := by
  rw [Frame.unit, Frame.withLiterals_of_ne fun entry _ => other entry.number,
    Frame.bind_of_ne _ name_ne]
  simp [Frame.inside, Frame.global]

theorem Frame.unit_values (entries : List Entry) :
    (Frame.unit entries).kinds "values" = some (.acceptor true) := by
  rw [Frame.unit, Frame.withLiterals_of_ne fun entry _ => (literalName_ne_values entry.number).symm]
  exact Frame.bind_self _ _ _

theorem Frame.unit_serves {entries : List Entry} {count : Nat} {c : Counters}
    (literals : LiteralsOk s.literals count entries) :
    (Frame.unit entries).Serves [] c s where
  unmade name made _ := by
    refine Frame.unit_kinds made.ne_literal ?_
    rintro rfl
    exact made.unreserved (by decide)
  bindings := List.forall_mem_nil _
  literals name value member := by
    rw [literals.initializers] at member
    obtain ⟨entry, inside, same⟩ := List.mem_map.mp member
    cases same
    exact ⟨literalName_unreserved _, literals.written.knows entry inside⟩

/-- What a unit is compiled to needs nothing around it. -/
theorem unitProgram_derivable {first last : CompileState} {entries : List Entry} {count : Nat}
    {value : Expr} (literals : LiteralsOk last.literals count entries)
    (compiles : Compiles .toplevel first last value) :
    ∃ code, unitProgram last.literals value = ⟨[.effect code]⟩ ∧
      Derivable Frame.global (.expr code .many) := by
  refine ⟨_, rfl, ?_⟩
  rw [literals.initializers]
  have values := Frame.unit_values entries
  have packer : Derivable Frame.global (.expr (.routine .packValues) (.acceptor true)) :=
    .acceptor (.inl rfl)
  refine .inPlace (by decide) id (fun _ => ⟨true, rfl⟩) packer ?_
  refine literals.written.derivable (fun n => ?_) (.ret ?_)
  · rw [Frame.bind_of_ne _ (literalName_ne_values n)]
    simp [Frame.inside, Frame.global]
  · exact compiles last _ (Progress.refl _) (Frame.unit_serves literals) true (.inr ⟨rfl, values⟩)

theorem Built.compileToplevel (forms : CompilesForms compile) (ok : CompilerOk W s)
    (datum : W.Datum form) :
    Built W s (Compiler.compileToplevel compile form) fun _ _ program =>
      ∃ code, program = ⟨[.effect code]⟩ ∧ Derivable Frame.global (.expr code .many) := by
  refine Built.bind (Built.freshUnit ok) fun W₁ s₁ _ further ok₁ _ => ?_
  refine Built.bind (Built.inFreshUnit ok₁ (forms W₁ _ .toplevel form ok₁.freshUnit
    (List.forall_mem_nil _) (further.datum datum))) fun W₂ s₂ result _ ok₂ held => ?_
  obtain ⟨value, literals⟩ := result
  obtain ⟨last, rfl, lastOk, compiles⟩ := held
  obtain ⟨entries, literalsOk⟩ := lastOk.literals
  exact Built.gives ok₂ (unitProgram_derivable literalsOk compiles)

/-- What a program of the compiler gives, whichever way it ends. -/
theorem Safe.program {program : Program} {code : Expr} (steps : Nat) {image : Image}
    (describes : W.Describes image) (some_ : W.scopes ≠ []) (same : program = ⟨[.effect code]⟩)
    (derivable : Derivable Frame.global (.expr code .many)) :
    Gives W image (Machine.runWithin steps program) .many :=
  same ▸ Safe.runWithin steps describes some_ derivable

/-- The first value of a form that is run at once. -/
theorem Built.evalNow (forms : CompilesForms compile) (ok : CompilerOk W s)
    (datum : W.Datum form) :
    Built W s (Compiler.evalNow compile form) fun W' _ => W'.Datum := by
  refine Built.bind (Built.compileToplevel forms ok datum) fun W₁ s₁ program _ ok₁ held => ?_
  obtain ⟨code, same, derivable⟩ := held
  have safe := Safe.program ampleSteps ok₁.describes ok₁.someScope same derivable
  refine Built.bind (Built.onMachine ok₁ safe fun _ language => language)
    fun W₂ s₂ result _ ok₂ many => ?_
  refine Built.ofState (Built.gives ok₂ ?_)
  have values := ok₂.describes.valuesOf_datum many
  cases values_eq : s₂.image.valuesOf result with
  | nil => trivial
  | cons first rest => exact values first (values_eq ▸ List.mem_cons_self)

end Programs

end LispScript.Discipline
