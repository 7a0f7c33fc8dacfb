import LispScript.Proofs.Escapes
import LispScript.Proofs.Jumps

/-!
Catches, tagbodies and cleanups: what they are compiled to keeps to the discipline wherever the
environment is served.
-/

namespace LispScript.Discipline

open Script Machine Compiler

section Catches

variable {W : World} {s : CompileState} {compile : FormCompiler} {context : Context}
  {form : Value} {args : List Value}

/-- The variable that holds a tag is none of those that scripts use otherwise. -/
theorem made_ne_cf {c c' : Counters} {name : String} (made : Made c c' name) : name ≠ "cf" := by
  rintro rfl
  exact made.unreserved (by decide)

theorem Built.compileCatch (forms : CompilesForms compile) (ok : CompilerOk W s)
    (env : EnvOk W s context.env) (data : W.Data args) :
    Built W s (Compiler.compileCatch compile context form args) fun _ s' code =>
      Compiles context s s' code := by
  unfold Compiler.compileCatch
  split
  · exact Built.malformed ok _ _
  · rename_i tag body
    obtain ⟨datumTag, dataBody⟩ := World.data_cons.mp data
    refine Built.bind (Built.freshVariable ok _) fun W₁ s₁ host step₁ ok₁ made => ?_
    refine Built.bind (Built.compileSingle forms ok₁ (env.further step₁) (step₁.datum datumTag))
      fun W₂ s₂ tag step₂ ok₂ codes => ?_
    have before₂ := step₁.trans step₂
    refine Built.bind (Built.compileBody forms ok₂ (env.further before₂) (before₂.data dataBody))
      fun W₃ s₃ stmts step₃ ok₃ delivers => ?_
    refine Built.gives ok₃ fun late frame progress serves manyValues accepts => ?_
    have inner := Frame.ServesBut.inside serves
    have within := ((step₂.trans step₃).progress.trans progress).counters
    have fresh := Frame.Serves.fresh inner (made.left within)
    obtain ⟨serves', has⟩ := Frame.Serves.bind inner made step₁.progress.counters within .datum
    have later : Frame.Later [] _ (frame.inside.bind host .datum) :=
      Frame.Later.bind fresh.1 List.not_mem_nil _
    have accepts' := later.accepts accepts.inside
    refine .wrap (.define fresh id ?_ (.interceptValues .catching (.refl _) has.known
      (made_ne_cf made) nofun accepts' ?_))
    · exact codes late _ (step₃.progress.trans progress) (inner.later step₁.progress.counters)
    · exact delivers late _ progress (serves'.later step₂.progress.counters) manyValues accepts'

theorem Built.compileThrow (forms : CompilesForms compile) (ok : CompilerOk W s)
    (env : EnvOk W s context.env) (data : W.Data args) :
    Built W s (Compiler.compileThrow compile context form args) fun _ s' code =>
      Compiles context s s' code := by
  unfold Compiler.compileThrow
  split
  · rename_i tag result
    obtain ⟨datumTag, datumResult⟩ : W.Datum tag ∧ W.Datum result := by
      simpa [World.data_cons, World.data_nil] using data
    refine Built.bind (Built.freshVariable ok _) fun W₁ s₁ host step₁ ok₁ made => ?_
    refine Built.bind (Built.compileSingle forms ok₁ (env.further step₁) (step₁.datum datumTag))
      fun W₂ s₂ tag step₂ ok₂ codes => ?_
    have before₂ := step₁.trans step₂
    refine Built.bind (Built.compileBundle forms ok₂ (env.further before₂)
      (before₂.datum datumResult)) fun W₃ s₃ bundle step₃ ok₃ carries => ?_
    refine Built.gives ok₃ fun late frame progress serves manyValues _ => ?_
    have inner := Frame.ServesBut.inside serves
    have within := ((step₂.trans step₃).progress.trans progress).counters
    obtain ⟨serves', has⟩ := Frame.Serves.bind inner made step₁.progress.counters within .datum
    refine .wrap (.define (Frame.Serves.fresh inner (made.left within)) id ?_
      (.raise .catching has.known ?_ (.ident has.known)))
    · exact codes late _ (step₃.progress.trans progress) (inner.later step₁.progress.counters)
    · exact carries late _ progress (serves'.later step₂.progress.counters)
  · exact Built.malformed ok _ _

theorem Built.compileUnwindProtect (forms : CompilesForms compile) (ok : CompilerOk W s)
    (env : EnvOk W s context.env) (data : W.Data args) :
    Built W s (Compiler.compileUnwindProtect compile context form args) fun _ s' code =>
      Compiles context s s' code := by
  unfold Compiler.compileUnwindProtect
  split
  · exact Built.malformed ok _ _
  · rename_i guardedForm cleanup
    obtain ⟨datum, dataCleanup⟩ := World.data_cons.mp data
    refine Built.bind (forms W s context guardedForm ok env datum)
      fun W₁ s₁ value step₁ ok₁ compiles => ?_
    split
    · exact Built.gives ok₁ compiles
    · refine Built.bind (Built.compileEffects forms ok₁ (env.further step₁)
        (step₁.data dataCleanup)) fun W₂ s₂ effects step₂ ok₂ all => ?_
      refine Built.gives ok₂ fun late frame progress serves manyValues accepts => ?_
      have inner := Frame.ServesBut.inside serves
      refine .wrap (.protect (.ret ?_) fun e member => ?_)
      · exact compiles late _ (step₂.progress.trans progress) inner manyValues accepts.inside
      · exact .widen Kind.datum_within_optional
          (all e member late _ progress (inner.later step₁.progress.counters))

end Catches

section Tagbodies

variable {W : World} {s : CompileState} {compile : FormCompiler} {context : Context}
  {form : Value} {args : List Value}

theorem Built.compileGo (ok : CompilerOk W s) (env : EnvOk W s context.env) :
    Built W s (Compiler.compileGo context form args) fun _ s' code =>
      Compiles context s s' code := by
  unfold Compiler.compileGo
  split
  · split
    · exact Built.described (Built.fails ok trivial)
    · rename_i binding found
      obtain ⟨inside, space⟩ := lookup?_found found
      refine Built.bind (Built.markUsed ok (env binding inside)) fun W₁ s₁ _ step₁ ok₁ used => ?_
      split
      · rename_i token label reference
        refine Built.described (Built.gives ok₁ fun late frame progress serves _ _ => ?_)
        have asks := serves.bindings binding inside
        rw [Asks, reference] at asks
        have has := asks space (progress.used binding used)
        exact Derivable.raiseTransfer .tagbody has .number .string
      · exact Built.described (Built.fails ok₁ trivial)
  · exact Built.malformed ok _ _

/-- The bindings of tags ask for the token of their tagbody, if they are used. -/
theorem Built.bindTags (ok : CompilerOk W s) (token : String) (tags : List Value) :
    Built W s (Compiler.bindTags token tags) fun W' s' bound => ∀ tag ∈ bound,
      BindingOk W' s' tag.2 ∧ ∃ label, tag.2.reference = .tag token label := by
  induction tags generalizing W s with
  | nil => exact Built.gives ok (List.forall_mem_nil _)
  | cons tag rest ih =>
      refine Built.bind (Built.freshTag ok) fun W₁ s₁ label step₁ ok₁ _ => ?_
      have plain : ReferenceOk W₁ (.tag token label) := trivial
      refine Built.bind (Built.newBinding ok₁ _ _ plain) fun W₂ s₂ binding step₂ ok₂ new => ?_
      refine Built.bind (ih ok₂) fun W₃ s₃ bound step₃ ok₃ all => Built.gives ok₃ ?_
      exact List.forall_mem_cons.mpr ⟨⟨new.ok.further step₃, label, new.reference_eq⟩, all⟩

/-- The sections of a tagbody, each as the expressions of its forms. -/
theorem Built.sections (forms : CompilesForms compile) (ok : CompilerOk W s)
    (env : EnvOk W s context.env) {parts : List (List Value)}
    (data : ∀ part ∈ parts, W.Data part) :
    Built W s (parts.mapM fun forms => do
      return (← Compiler.compileArgs compile context forms).map Stmt.effect) fun _ s' bodies =>
      ∃ codes : List (List Expr), bodies = codes.map (·.map .effect) ∧
        ∀ part ∈ codes, CodesAll context.env s s' part := by
  induction parts generalizing W s with
  | nil =>
      rw [List.mapM_nil]
      exact Built.gives ok ⟨[], rfl, nofun⟩
  | cons part rest ih =>
      obtain ⟨first, others⟩ := List.forall_mem_cons.mp data
      rw [List.mapM_cons]
      have section_ : Built W s (do
          return (← Compiler.compileArgs compile context part).map Stmt.effect) fun _ s' body =>
          ∃ codes : List Expr, body = codes.map .effect ∧ CodesAll context.env s s' codes :=
        Built.bind (Built.compileArgs forms ok env first) fun _ _ codes _ ok₁ all =>
          Built.gives ok₁ ⟨codes, rfl, all.2⟩
      refine Built.bind section_ fun W₁ s₁ body step₁ ok₁ made => ?_
      refine Built.bind (ih ok₁ (env.further step₁) fun other member =>
        step₁.data (others other member)) fun W₂ s₂ bodies step₂ ok₂ more => Built.gives ok₂ ?_
      obtain ⟨codes, rfl, all⟩ := made
      obtain ⟨rest, rfl, allRest⟩ := more
      refine ⟨codes :: rest, rfl, List.forall_mem_cons.mpr ⟨fun code member => ?_,
        fun part inside code member => ?_⟩⟩
      · exact (all code member).widen (Progress.refl s) step₂.progress
      · exact (allRest part inside code member).widen step₁.progress (Progress.refl s₂)

/-- A variable that is made when the code is done is in nobody's way. -/
theorem Frame.Serves.bindBeyond {frame : Frame} {env : Environment} {c c' : Counters}
    {late : CompileState} {name : String} (serves : frame.Serves env c late)
    (fresh : frame.kinds name = none) (made : Made late.counters c' name) (kind : Kind) :
    (frame.bind name kind).Serves env c late :=
  ServesBut.bind serves fresh (Counters.Leads.refl c) kind fun before => (before.disjoint made).elim

/-- The tags of a tagbody in front of an environment ask for its token only. -/
theorem Frame.Serves.tags {frame : Frame} {env : Environment} {c : Counters} {late : CompileState}
    {tags : List (Nat × Binding)} (serves : frame.Serves env c late)
    (asks : ∀ tag ∈ tags, Asks late frame tag.2) :
    frame.Serves ((tags.map Prod.snd).reverse ++ env) c late := by
  refine ⟨serves.unmade, fun binding member => ?_, serves.literals⟩
  rcases List.mem_append.mp member with inside | outside
  · obtain ⟨tag, within, rfl⟩ := List.mem_map.mp (List.mem_reverse.mp inside)
    exact asks tag within
  · exact serves.bindings binding outside

/-- The tags of a tagbody ask for nothing if none of them is used. -/
theorem Frame.Serves.unusedTags {frame : Frame} {env : Environment} {c : Counters}
    {late : CompileState} {token : String} {tags : List (Nat × Binding)}
    (serves : frame.Serves env c late)
    (bound : ∀ tag ∈ tags, ∃ label, tag.2.reference = .tag token label)
    (unused : (tags.any fun tag => (late.bindings.declared tag.2).used) = false) :
    frame.Serves ((tags.map Prod.snd).reverse ++ env) c late := by
  refine serves.tags fun tag member => ?_
  obtain ⟨label, reference⟩ := bound tag member
  have unmarked : (late.bindings.declared tag.2).used = false := by
    simpa using List.any_eq_false.mp unused tag member
  rw [Asks, reference]
  exact fun _ used => absurd used (by simp [unmarked])

/-- A tagbody none of whose tags is used runs its sections one after the other. -/
theorem Delivers.sections {s' : CompileState} {parts : List (List Expr)}
    (all : ∀ part ∈ parts, CodesAll context.env s s' part) :
    Delivers context s s' ((parts.map (·.map .effect)).flatten ++ [.ret .nil]) := by
  intro late frame progress serves manyValues _
  rw [← List.map_flatten]
  refine Derivable.effects (fun e member => ?_) (.ret (Derivable.nil_result frame manyValues))
  obtain ⟨part, inside, member⟩ := List.mem_flatten.mp member
  exact all part inside e member late frame progress serves

/-- The loop of a tagbody stands where its token and the variable for the label are defined. -/
theorem Derivable.tagbody {frame : Frame} {token branch loopLabel : String} {start : Expr}
    {sections : List (Nat × List Expr)} {kind : Kind} (freshToken : frame.inside.Fresh token)
    (freshBranch : (frame.inside.bind token .tagbody).Fresh branch) (branch_ne : branch ≠ token)
    (start_datum : ∀ frame, Derivable frame (.expr start .datum))
    (data : ∀ part ∈ sections, ∀ e ∈ part.2, Derivable
      (((frame.inside.bind token .tagbody).pend [token]).bind branch .datum) (.expr e .datum))
    (value : ∀ frame, Derivable frame (.expr .nil kind)) :
    Derivable frame (.expr (.wrap [.define token (.array []), .define branch start,
      tagbodyLoop loopLabel token branch sections, .ret .nil]) kind) := by
  have isToken : Kind.IsToken .tagbody := trivial
  have token_ne : token ≠ "cf" := fun same => freshToken.2 (same ▸ by decide)
  have branch_ne_cf : branch ≠ "cf" := fun same => freshBranch.2 (same ▸ by decide)
  refine .wrap (.defineToken freshToken isToken (.define freshBranch id (start_datum _)
    (.dispatch ?_ token_ne ?_ branch_ne_cf data (.ret (value _)))))
  · rw [Frame.bind_of_ne _ branch_ne.symm]
    exact Frame.bind_self _ _ _
  · exact Frame.bind_self _ _ _

/-- A tagbody in which control jumps. The variable for the label is made when the sections are
compiled, so it is not in their way. -/
theorem Compiles.tagbody {s₁ s₃ s₄ s₆ : CompileState} {token branch loopLabel : String}
    {tags : List (Nat × Binding)} {labels : List Nat} {parts : List (List Expr)}
    (madeToken : Made s.counters s₁.counters token) (progress₁ : Progress s s₁)
    (progress₃ : Progress s₁ s₃) (progress₄ : Progress s₃ s₄) (progress₆ : Progress s₄ s₆)
    (madeBranch : Made s₄.counters s₆.counters branch)
    (bound : ∀ tag ∈ tags, ∃ label, tag.2.reference = .tag token label)
    (all : ∀ part ∈ parts, CodesAll ((tags.map Prod.snd).reverse ++ context.env) s₃ s₄ part) :
    Compiles context s s₆ (.wrap [.define token (.array []),
      .define branch (labelExpr (labels.headD 0)),
      tagbodyLoop loopLabel token branch (labels.zip parts), .ret .nil]) := by
  intro late frame progress serves manyValues _
  have inner := Frame.ServesBut.inside serves
  have last₁ := ((progress₃.trans progress₄).trans progress₆).trans progress
  have last₄ := progress₆.trans progress
  obtain ⟨serves₁, has⟩ :=
    Frame.Serves.bind inner madeToken progress₁.counters last₁.counters .tagbody
  have serves₄ := serves₁.later (progress₃.trans progress₄).counters
  have freshBranch := Frame.Serves.fresh serves₄ (madeBranch.left progress.counters)
  have known : Frame.Serves _ context.env s₃.counters s₄ :=
    ((serves₁.pend [token]).later progress₃.counters).earlier last₄
  have distinct : branch ≠ token := by
    rintro rfl
    exact (madeToken.left (progress₃.trans progress₄).counters).disjoint madeBranch
  have within := Frame.Serves.bindBeyond known freshBranch.1 madeBranch .datum
  refine Derivable.tagbody (Frame.Serves.fresh inner (madeToken.left last₁.counters)) freshBranch
    distinct (fun _ => .number) (fun part member e inside => ?_) fun _ =>
      Derivable.nil_result _ manyValues
  refine all part.2 (List.of_mem_zip member).2 e inside s₄ _ (Progress.refl s₄)
    (within.tags fun tag member => ?_)
  obtain ⟨label, reference⟩ := bound tag member
  rw [Asks, reference]
  exact fun _ _ => ⟨has.unreserved, (Frame.bind_of_ne _ distinct.symm _).trans has.known⟩

/-- A step whose result does not matter. -/
theorem Built.done {a : α} (ok : CompilerOk W s) : Built W s (pure a) fun _ _ _ => True :=
  Built.gives ok trivial

theorem Built.anyUsed (ok : CompilerOk W s) (tags : List (Nat × Binding)) :
    Built W s (tags.anyM fun tag => do return (← Compiler.declared tag.2).used) fun _ s' used =>
      used = tags.any fun tag => (s'.bindings.declared tag.2).used := by
  rw [Built, anyM_used]
  exact .ok W (Further.refl W s) ok rfl

theorem sectionForms_data {leading : List Value} {segments : List (Value × List Value)}
    (dataLeading : W.Data leading) (dataSegments : ∀ segment ∈ segments, W.Data segment.2) :
    ∀ part ∈ sectionForms leading segments, W.Data part := by
  intro part member
  have inSegments : part ∈ segments.map Prod.snd → W.Data part := by
    intro inside
    obtain ⟨segment, found, rfl⟩ := List.mem_map.mp inside
    exact dataSegments segment found
  unfold sectionForms at member
  split at member
  · exact inSegments member
  · rcases List.mem_cons.mp member with rfl | member
    · exact dataLeading
    · exact inSegments member

theorem Built.compileTagged (forms : CompilesForms compile) (ok : CompilerOk W s)
    (env : EnvOk W s context.env) {leading : List Value} {segments : List (Value × List Value)}
    (dataLeading : W.Data leading) (dataSegments : ∀ segment ∈ segments, W.Data segment.2) :
    Built W s (Compiler.compileTagged compile context leading segments) fun _ s' code =>
      Compiles context s s' code := by
  unfold Compiler.compileTagged
  refine Built.bind (Built.freshTagbody ok) fun W₁ s₁ names step₁ ok₁ madeToken => ?_
  obtain ⟨token, loopLabel⟩ := names
  have dataSections := sectionForms_data dataLeading dataSegments
  unfold sectionForms at dataSections
  dsimp only
  split
  case' isTrue => refine Built.bind (Built.done ok₁) fun W₂ s₂ start step₂ ok₂ _ => ?_
  case' isFalse =>
    refine Built.bind (Built.freshTag ok₁) fun W₂ s₂ label first ok₂ _ => ?_
    refine Built.bind (Built.done ok₂) fun W₂ s₂ start second ok₂ _ => ?_
    have step₂ := first.trans second
  all_goals
    refine Built.bind (Built.bindTags ok₂ token _) fun W₃ s₃ tags step₃ ok₃ bound => ?_
    have before₃ := (step₁.trans step₂).trans step₃
    have env₃ : EnvOk W₃ s₃ (context.withEnv ((tags.map Prod.snd).reverse ++ context.env)).env := by
      intro binding member
      rcases List.mem_append.mp member with inside | outside
      · obtain ⟨tag, within, rfl⟩ := List.mem_map.mp (List.mem_reverse.mp inside)
        exact (bound tag within).1
      · exact (env.further before₃) binding outside
    refine Built.bind (Built.sections forms ok₃ env₃ fun part member => before₃.data
      (dataSections part ?_)) fun W₄ s₄ bodies step₄ ok₄ made => ?_
    · simp [*]
    obtain ⟨parts, rfl, all⟩ := made
    refine Built.bind (Built.anyUsed ok₄ tags) fun W₅ s₅ used step₅ ok₅ isUsed => ?_
    cases used with
    | false =>
        refine Built.gives ok₅ (Delivers.statements fun late frame progress serves manyValues
          accepts => ?_)
        -- No tag is used by the end of the sections, whatever the code after them does.
        have serves₅ := (serves.later before₃.progress.counters).earlier progress
        exact Delivers.sections all s₅ frame step₅.progress (Frame.Serves.unusedTags serves₅
          (fun tag member => (bound tag member).2) isUsed.symm) manyValues accepts
    | true =>
        refine Built.bind (Built.freshVariable ok₅ "branch")
          fun W₆ s₆ branch step₆ ok₆ madeBranch => Built.gives ok₆ ?_
        have cases_eq : ∀ labels : List Nat,
            ((labels.zip (parts.map (·.map Stmt.effect))).map fun item =>
              Case.case (labelExpr item.1) item.2) = (labels.zip parts).map fun item =>
                Case.case (labelExpr item.1) (item.2.map .effect) := by
          intro labels
          rw [List.zip_map_right, List.map_map]
          rfl
        rw [cases_eq]
        exact Compiles.tagbody madeToken step₁.progress (step₂.trans step₃).progress
          (step₄.trans step₅).progress step₆.progress madeBranch (fun tag member =>
            (bound tag member).2) fun part member => fun e inside =>
              (all part member e inside).widen (Progress.refl _) step₅.progress

theorem Built.isTag (ok : CompilerOk W s) (item : Value) :
    Built W s (Compiler.isTag form item) fun _ _ _ => True := by
  unfold Compiler.isTag
  split
  · exact Built.done ok
  · exact Built.done ok
  · exact Built.done ok
  · exact Built.done ok
  · exact Built.described (Built.malformed ok _ _)

/-- The items of a tagbody, each with the answer whether it is a tag. -/
theorem Built.items (ok : CompilerOk W s) (data : W.Data args) :
    Built W s (args.mapM fun item => do return (item, ← Compiler.isTag form item))
      fun W' _ items => ∀ item ∈ items, W'.Datum item.1 := by
  induction args generalizing W s with
  | nil =>
      rw [List.mapM_nil]
      exact Built.gives ok nofun
  | cons item rest ih =>
      obtain ⟨datum, others⟩ := World.data_cons.mp data
      rw [List.mapM_cons]
      have one : Built W s (do return (item, ← Compiler.isTag form item)) fun W' _ item =>
          W'.Datum item.1 :=
        Built.bind (Built.isTag ok item) fun _ _ _ step ok₁ _ => Built.gives ok₁ (step.datum datum)
      refine Built.bind one fun W₁ s₁ item step₁ ok₁ first => ?_
      refine Built.bind (ih ok₁ (step₁.data others)) fun W₂ s₂ items step₂ ok₂ all => ?_
      exact Built.gives ok₂ (List.forall_mem_cons.mpr ⟨step₂.datum first, all⟩)

theorem Built.compileTagbody (forms : CompilesForms compile) (ok : CompilerOk W s)
    (env : EnvOk W s context.env) (data : W.Data args) :
    Built W s (Compiler.compileTagbody compile context form args) fun _ s' code =>
      Compiles context s s' code := by
  refine Built.bind (Built.items ok data) fun W₁ s₁ items step₁ ok₁ held => ?_
  obtain ⟨leadingKinds, segmentKinds⟩ := splitAtTags_kinds items
  have env₁ := env.further step₁
  split
  · refine (Built.compileProgn forms ok₁ env₁ ?_).mono fun _ _ _ compiles =>
      compiles.widen step₁.progress (Progress.refl _)
    intro item member
    rcases List.mem_append.mp member with inside | last
    · exact step₁.data data item inside
    · rw [List.mem_singleton.mp last]
      trivial
  · rename_i leading segments _ divided
    rw [divided] at leadingKinds segmentKinds
    refine (Built.compileTagged forms ok₁ env₁ (fun item member =>
      held _ (leadingKinds item member)) fun segment member item inside =>
        held _ ((segmentKinds segment member).2 item inside)).mono fun _ _ _ compiles => ?_
    exact compiles.widen step₁.progress (Progress.refl _)

end Tagbodies

section Values

variable {W : World} {s : CompileState} {compile : FormCompiler} {context : Context}
  {form : Value} {args : List Value}

/-- Code for a vector of an acceptor and of values after it. -/
abbrev Collects (context : Context) (s s' : CompileState) (code : Expr) : Prop :=
  Everywhere context.env s s' fun frame => ∀ manyValues,
    frame.Accepts context.acceptor manyValues → Derivable frame (.expr code (.collector manyValues))

theorem Built.appendBundles (forms : CompilesForms compile) {before : CompileState}
    (ok : CompilerOk W s) (env : EnvOk W s context.env) (since : Progress before s)
    {arguments : Expr} (collects : Collects context before s arguments) (data : W.Data args) :
    Built W s (Compiler.appendBundles compile context arguments args) fun _ s' code =>
      Collects context before s' code := by
  induction args generalizing W s arguments with
  | nil => exact Built.gives ok collects
  | cons form rest ih =>
      obtain ⟨datum, others⟩ := World.data_cons.mp data
      refine Built.bind (Built.compileBundle forms ok env datum)
        fun W₁ s₁ bundle step₁ ok₁ codes => ?_
      refine ih ok₁ (env.further step₁) (since.trans step₁.progress)
        (fun late frame progress serves manyValues accepts => ?_) (step₁.data others)
      exact .appendValues
        (collects late frame (step₁.progress.trans progress) serves manyValues accepts)
        (codes late frame progress (serves.later since.counters))

theorem Built.compileMultipleValueCall (forms : CompilesForms compile) (ok : CompilerOk W s)
    (env : EnvOk W s context.env) (data : W.Data args) :
    Built W s (Compiler.compileMultipleValueCall compile context form args) fun _ s' code =>
      Compiles context s s' code := by
  refine Built.bind (Built.expectArgs ok _ _ _ _) fun W₁ s₁ _ step₁ ok₁ _ => ?_
  refine Built.bind (Built.compileSingle forms ok₁ (env.further step₁)
    (step₁.datum data.headD)) fun W₂ s₂ function step₂ ok₂ codes => ?_
  have before₂ := step₁.trans step₂
  refine Built.bind (Built.appendBundles forms ok₂ (env.further before₂) (Progress.refl s₂)
    (fun late frame progress serves manyValues accepts => .collect accepts)
    (before₂.data data.tail)) fun W₃ s₃ arguments step₃ ok₃ collects => Built.gives ok₃ ?_
  intro late frame progress serves manyValues accepts
  refine .multipleValueCall ?_ (collects late frame progress (serves.later before₂.progress.counters)
    manyValues accepts)
  exact codes late frame (step₃.progress.trans progress) (serves.later step₁.progress.counters)

theorem Built.compileMultipleValueProg1 (forms : CompilesForms compile) (ok : CompilerOk W s)
    (env : EnvOk W s context.env) (data : W.Data args) :
    Built W s (Compiler.compileMultipleValueProg1 compile context form args) fun _ s' code =>
      Compiles context s s' code := by
  refine Built.bind (Built.expectArgs ok _ _ _ _) fun W₁ s₁ _ step₁ ok₁ _ => ?_
  refine Built.bind (forms W₁ s₁ context _ ok₁ (env.further step₁) (step₁.datum data.headD))
    fun W₂ s₂ first step₂ ok₂ compiles => ?_
  split
  · exact Built.gives ok₂ (compiles.widen step₁.progress (Progress.refl _))
  · have before₂ := step₁.trans step₂
    refine Built.bind (Built.freshVariable ok₂ _) fun W₃ s₃ result step₃ ok₃ made => ?_
    have before₃ := before₂.trans step₃
    refine Built.bind (Built.compileEffects forms ok₃ (env.further before₃)
      (before₃.data data.tail)) fun W₄ s₄ effects step₄ ok₄ all => ?_
    refine Built.gives ok₄ fun late frame progress serves manyValues accepts => ?_
    have inner := Frame.ServesBut.inside serves
    have serves₂ := inner.later before₂.progress.counters
    have within := (step₄.progress.trans progress).counters
    obtain ⟨serves₃, has⟩ := Frame.Serves.bind serves₂ made step₃.progress.counters within
      (.result manyValues)
    have plain : ¬ (Kind.result manyValues).IsToken := by cases manyValues <;> exact id
    refine .wrap (.define (Frame.Serves.fresh serves₂ (made.left within)) plain ?_ ?_)
    · exact compiles late _ ((step₃.trans step₄).progress.trans progress)
        (inner.later step₁.progress.counters) manyValues accepts.inside
    · exact Derivable.effects (fun e member => all e member late _ progress serves₃)
        (.ret (.ident has.known))

end Values

end LispScript.Discipline
