import LispScript.Proofs.Scoping

/-!
Forms that leave others, and forms that are left: what they are compiled to finds the token or the tag
that identifies the target wherever the environment is served.
-/

namespace LispScript.Discipline

open Script Machine Compiler

section Blocks

variable {W : World} {s s₁ s₂ : CompileState} {compile : FormCompiler} {context : Context}
  {form : Value} {args : List Value} {frame : Frame}

theorem Built.blockName (ok : CompilerOk W s) (name : Value) :
    Built W s (Compiler.blockName form name) fun _ _ _ => True := by
  unfold Compiler.blockName
  split
  · exact Built.gives ok trivial
  · exact Built.malformed ok _ _

/-- The routine for lone values accepts nothing else. -/
theorem Frame.Accepts.lone {manyValues : Bool}
    (accepts : frame.Accepts (.routine .primaryValue) manyValues) :
    manyValues = false := by
  rcases accepts with same | ⟨same, -⟩
  · cases manyValues with
    | false => rfl
    | true => cases same
  · cases same

/-- A handler for the transfers of a block hands over what they carry. -/
theorem Derivable.interceptBlock {token : String} {stmts : List Stmt} {manyValues : Bool}
    (known : frame.kinds token = some (.block context.manyValues)) (name_ne : token ≠ "cf")
    (own : token ∈ frame.pending) (accepts : frame.Accepts context.acceptor manyValues)
    (block : Derivable frame (.returns stmts (.result manyValues))) :
    Derivable frame (.returns [intercept stmts .block (.ident token)
      [.ret (if context.manyValues then .callRoutine .deliverValues [.ident "values", signalPayload]
        else signalPayload)]] (.result manyValues)) := by
  unfold Context.acceptor at accepts
  cases wanted : context.manyValues with
  | true =>
      rw [wanted] at known accepts
      exact .interceptValues (.block true) (Kind.result_within_many true) known name_ne
        (fun _ => own) accepts block
  | false =>
      rw [wanted] at known accepts
      obtain rfl := accepts.lone
      exact .interceptPayload (.block false) known name_ne (fun _ => own) block

/-- A block with its handler: the token is defined before the body, which stands in a scope of its
own. -/
theorem Derivable.block {token : String} {stmts : List Stmt} {manyValues : Bool}
    {env : Environment} {c c' : Counters} {late : CompileState} (made : Made c c' token)
    (leads : c.Leads c') (within : c'.Leads late.counters) (serves : frame.Serves env c late)
    (accepts : frame.Accepts context.acceptor manyValues)
    (body : ∀ frame' : Frame, frame'.Serves env c' late →
      frame'.Has token (.block context.manyValues) → frame'.Accepts context.acceptor manyValues →
        Derivable frame' (.returns stmts (.result manyValues))) :
    Derivable frame (.expr (.wrap [.define token (.array []), intercept stmts .block (.ident token)
      [.ret (if context.manyValues then .callRoutine .deliverValues [.ident "values", signalPayload]
        else signalPayload)]]) (.result manyValues)) := by
  have inner := Frame.ServesBut.inside serves
  have fresh := Frame.Serves.fresh inner (made.left within)
  obtain ⟨serves', has⟩ := Frame.Serves.bind inner made leads within (.block context.manyValues)
  have later : Frame.Later [] _ (frame.inside.bind token (.block context.manyValues)) :=
    Frame.Later.bind fresh.1 List.not_mem_nil _
  have accepts' := later.accepts accepts.inside
  have isToken : Kind.IsToken (.block context.manyValues) := trivial
  refine .wrap (.defineToken fresh isToken
    (Derivable.interceptBlock has.known ?_ ?_ accepts' ?_))
  · rintro rfl
    exact made.unreserved (by decide)
  · exact List.mem_append_left _ List.mem_cons_self
  · exact body _ (serves'.pend [token]) ⟨has.unreserved, has.known⟩ accepts'

theorem Built.compileBlock (forms : CompilesForms compile) (ok : CompilerOk W s)
    (env : EnvOk W s context.env) (data : W.Data args) :
    Built W s (Compiler.compileBlock compile context form args) fun _ s' code =>
      Compiles context s s' code := by
  unfold Compiler.compileBlock
  split
  · exact Built.malformed ok _ _
  · rename_i name body
    refine Built.bind (Built.blockName ok _) fun W₁ s₁ name step₁ ok₁ _ => ?_
    refine Built.bind (Built.freshBlock ok₁) fun W₂ s₂ token step₂ ok₂ made => ?_
    have plain : ReferenceOk W₂ (.block token context.manyValues) := trivial
    refine Built.bind (Built.newBinding ok₂ _ _ plain) fun W₃ s₃ binding step₃ ok₃ new => ?_
    have before₂ := step₁.trans step₂
    have before₃ := before₂.trans step₃
    have env₃ : EnvOk W₃ s₃ (context.withEnv (binding :: context.env)).env :=
      List.forall_mem_cons.mpr ⟨new.ok, env.further before₃⟩
    refine Built.bind (Built.compileBody forms ok₃ env₃
      (before₃.data (World.data_cons.mp data).2)) fun W₄ s₄ stmts step₄ ok₄ delivers => ?_
    refine Built.ofDeclared ?_
    cases used : (s₄.bindings.declared binding).used with
    | false =>
        refine Built.gives ok₄ (Delivers.statements fun late frame progress serves manyValues
          accepts => ?_)
        -- The body makes no use of the block, whatever the code after it does.
        have serves₄ := (serves.later before₃.progress.counters).earlier progress
        refine delivers s₄ frame (Progress.refl _) (serves₄.cons ?_) manyValues accepts
        rw [Asks, new.reference_eq]
        intro _ isUsed
        rw [used] at isUsed
        cases isUsed
    | true =>
        refine Built.gives ok₄ fun late frame progress serves manyValues accepts => ?_
        have serves₁ := serves.later step₁.progress.counters
        have within := ((step₃.trans step₄).progress.trans progress).counters
        refine Derivable.block made step₂.progress.counters within serves₁ accepts
          fun frame' serves' has accepts' => ?_
        refine delivers late frame' progress ((serves'.later step₃.progress.counters).cons ?_)
          manyValues accepts'
        rw [Asks, new.reference_eq]
        exact fun _ _ => has

/-- A transfer to a target that is known. -/
theorem Derivable.raiseTransfer {transferKind : TransferKind} {target carried kind : Kind}
    {name : String} {payload label : Expr} (handles : Handles transferKind target carried)
    (has : frame.Has name target) (payload_derives : Derivable frame.inside (.expr payload carried))
    (label_derives : Derivable frame.inside (.expr label .datum)) :
    Derivable frame (.expr (Compiler.raiseTransfer transferKind (.ident name) payload label) kind) :=
  .wrap (.raise handles has.inside.known payload_derives label_derives)

theorem Built.compileReturnFrom (forms : CompilesForms compile) (ok : CompilerOk W s)
    (env : EnvOk W s context.env) (data : W.Data args) :
    Built W s (Compiler.compileReturnFrom compile context form args) fun _ s' code =>
      Compiles context s s' code := by
  unfold Compiler.compileReturnFrom
  split
  · exact Built.malformed_bind ok _ _
  · refine Built.bind (Built.blockName ok _) fun W₁ s₁ name step₁ ok₁ _ => ?_
    split
    · exact Built.named (Built.fails ok₁ trivial)
    · rename_i binding found
      obtain ⟨inside, space⟩ := lookup?_found found
      refine Built.bind (Built.markUsed ok₁ (env.further step₁ binding inside))
        fun W₂ s₂ _ step₂ ok₂ used => ?_
      have before₂ := step₁.trans step₂
      split
      · rename_i token manyValues reference
        have raised : ∀ W₃ s₃ payload, Further W₂ s₂ W₃ s₃ → CompilerOk W₃ s₃ →
            Codes context.env s₂ s₃ payload (.result manyValues) →
            Built W₃ s₃ (do
              return Compiler.raiseTransfer .block (.ident token) payload
                (.string (← Compiler.symbolName name))) fun _ s' code =>
              Compiles context s s' code := by
          intro W₃ s₃ payload step₃ ok₃ codes
          refine Built.named (Built.gives ok₃ fun late frame progress serves _ _ => ?_)
          have asks := serves.bindings binding inside
          rw [Asks, reference] at asks
          have has := asks space ((step₃.progress.trans progress).used binding used)
          refine Derivable.raiseTransfer (.block manyValues) has ?_ .string
          exact codes late _ progress (serves.later before₂.progress.counters).inside
        have value := before₂.datum data.tail.headD
        dsimp only
        cases manyValues with
        | true =>
            refine Built.bind (Built.compileBundle forms ok₂ (env.further before₂) value)
              fun W₃ s₃ payload step₃ ok₃ codes => raised W₃ s₃ payload step₃ ok₃ codes
        | false =>
            refine Built.bind (Built.compileSingle forms ok₂ (env.further before₂) value)
              fun W₃ s₃ payload step₃ ok₃ codes => raised W₃ s₃ payload step₃ ok₃ codes
      · exact Built.named (Built.fails ok₂ trivial)

end Blocks

end LispScript.Discipline
