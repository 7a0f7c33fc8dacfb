import LispScript.Proofs.Compilation
import LispScript.Proofs.FormEffects

/-!
When a tagbody has its loop. A `GO` that is compiled marks its tag as used. Where no tag was marked, no
section refers to the activation, so that a loop would go round once.
-/

namespace LispScript

open Script Compiler Machine Discipline

section Marking

variable {context : Context} {s s' t t' last : CompileState} {depth : Nat} {token : String}
  {leading names : List Value} {segments : List (Value × List Value)} {tags : List (Nat × Binding)}

theorem bindTags_known (done : bindTags token names s = .ok tags s') :
    ∀ tag ∈ tags, tag.2.declarations < s'.bindings.declarations.size := by
  induction names generalizing s tags with
  | nil =>
      cases done
      exact List.forall_mem_nil _
  | cons name rest ih =>
      rw [bindTags] at done
      obtain ⟨label, s₁, made, done⟩ := ok_of_bind done
      obtain ⟨binding, s₂, bound, done⟩ := ok_of_bind done
      obtain ⟨others, s₃, more, done⟩ := ok_of_bind done
      cases done
      have kept : KeepsMarks s₂ s' := (bindTags_obeys token rest).ended more
      refine List.forall_mem_cons.mpr ⟨Nat.lt_of_lt_of_le ?_ kept.declarations, ih more⟩
      cases bound
      simp

variable (parts : TagbodyParts depth context leading segments s last)

/-- A `GO` that is compiled within a section makes use of the tagbody. -/
theorem TagbodyParts.used_of_go {tag : Nat × Binding} (member : tag ∈ parts.tags)
    (marked : markUsed tag.2 t = .ok () t') (before : Later parts.third t)
    (after : Later t' last) : parts.used = true := by
  have known := Nat.lt_of_lt_of_le (bindTags_known parts.bound tag member)
    (before KeepsMarks).declarations
  exact List.any_eq_true.mpr
    ⟨tag, member, (after KeepsMarks).used tag.2 (markUsed_used known marked)⟩

end Marking

section Unmarked

variable {context : Context} {s last later : CompileState} {depth : Nat} {leading : List Value}
  {segments : List (Value × List Value)} {branch : String} {form : Value} {args : List Value}

theorem Built.startLabel {W : World} (ok : CompilerOk W s) (leading : List Value) :
    Built W s (LispScript.startLabel leading) fun _ _ _ => True := by
  unfold LispScript.startLabel
  split
  · exact Built.done ok
  · exact Built.bind (Built.freshTag ok) fun _ _ _ _ ok₁ _ => Built.done ok₁

/-- Where no `GO` has marked a tag as used, no section refers to the activation. -/
theorem TagbodyParts.unreferenced {W : World} {late : CompileState} {frame : Frame}
    (parts : TagbodyParts depth context leading segments s last) (unused : parts.used = false)
    (ok : CompilerOk W s) (env : EnvOk W s context.env) (dataLeading : W.Data leading)
    (dataSegments : ∀ segment ∈ segments, W.Data segment.2)
    (new : freshVariable "branch" last = .ok branch later) (progress : Progress later late)
    (serves : frame.Serves context.env s.counters late) :
    (parts.tagbody branch).Unreferenced frame := by
  obtain ⟨W₁, step₁, ok₁, madeToken⟩ := (Built.freshTagbody ok).ended parts.fresh
  obtain ⟨W₂, step₂, ok₂, -⟩ := (Built.startLabel ok₁ leading).ended parts.started
  obtain ⟨W₃, step₃, ok₃, bound⟩ := (Built.bindTags ok₂ parts.token _).ended parts.bound
  have before := (step₁.trans step₂).trans step₃
  have env₃ : EnvOk W₃ parts.third (inSight context parts.tags).env := by
    intro binding member
    rcases List.mem_append.mp member with inside | outside
    · obtain ⟨tag, within, rfl⟩ := List.mem_map.mp (List.mem_reverse.mp inside)
      exact (bound tag within).1
    · exact (env.further before) binding outside
  obtain ⟨W₄, step₄, ok₄, codes, bodies_eq, all⟩ := (Built.sections (CompilesForms.within depth) ok₃
    env₃ fun part member => before.data
      (sectionForms_data dataLeading dataSegments part member)).ended parts.compiled
  obtain ⟨W₅, step₅, ok₅, madeBranch⟩ := (Built.freshVariable ok₄ "branch").ended new
  have inner := Frame.ServesBut.inside serves
  have whole := before.trans step₄
  have rest₁ := (((step₂.trans step₃).trans step₄).trans step₅).progress.trans progress
  refine ⟨Frame.Serves.fresh inner (madeToken.left rest₁.counters),
    Frame.Serves.fresh (inner.later whole.progress.counters) (madeBranch.left progress.counters),
    codes.flatten, ?_, fun code member => ?_⟩
  · change parts.bodies.flatten = _
    rw [bodies_eq, List.map_flatten]
  · obtain ⟨part, inside, member⟩ := List.mem_flatten.mp member
    have known := (inner.later before.progress.counters).earlier (step₅.progress.trans progress)
    exact all part inside code member last _ (Progress.refl last)
      (Frame.Serves.unusedTags known (fun tag member => (bound tag member).2) unused)

/-- The code of a tagbody without its loop, for which nothing would be different with it: where the
code can run, an activation with a loop runs its sections through once. -/
structure Unlooped (parts : TagbodyParts depth context leading segments s last) (code : Expr) :
    Prop where
  straight : RunsThrough parts.bodies.flatten code
  idle : ∀ {W : World} {image : Image} {b : Nat} {branch : String} {later : CompileState}
      (steps turns : Nat), CompilerOk W s → EnvOk W s context.env →
    freshVariable "branch" last = .ok branch later → RunsIn context s later image b →
    Ordered image.heap →
    ∃ i, (parts.tagbody branch).Reaches steps (turns + 1) b image
        (.vector (image.heap.vectors.size + 1)) (turns + 1) 0 i ∧
      evalExpr (callWithin (steps + 1)) (turns + 1) b (parts.tagbody branch).code image =
        ranThrough image.heap.scopes.size (execBlock (callWithin (steps + 1)) (turns + 1)
          image.heap.scopes.size parts.bodies.flatten i)

theorem TagbodyParts.unlooped (parts : TagbodyParts depth context leading segments s last)
    (isTagbody : IsForm s.image.heap .tagbody args form) (divides : Divides args leading segments)
    (standing : Standing context s)
    (room : s.counters.tags + (assemble leading segments).length < Number.exactLimit)
    (some_ : segments ≠ []) (unused : parts.used = false) :
    Unlooped parts (parts.tagbody "").straight := by
  refine ⟨?_, ?_⟩
  · obtain ⟨_, effects⟩ := compileSections_effects parts.compiled
    apply statementsExpr_runsThrough
    intro stmt member
    obtain ⟨body, inside, member⟩ := List.mem_flatten.mp member
    exact effects body inside stmt member
  · intro W image b branch later steps turns ok env new runs ordered
    have data : W.Data args := isTagbody.data ok.describes
    rw [← divides.items, assemble] at data
    have dataLeading : W.Data leading := fun value member => data value (List.mem_append_left _ member)
    have dataSegments : ∀ segment ∈ segments, W.Data segment.2 := fun segment member value inside =>
      data value (List.mem_append_right _ (List.mem_flatMap.mpr
        ⟨segment, member, List.mem_cons_of_mem _ inside⟩))
    obtain ⟨W', late, frame, progress, serves, describes, admits⟩ := runs
    exact (parts.unreferenced unused ok env dataLeading dataSegments new progress serves).runs
      (parts.wellFormed standing room some_ new) describes admits ordered steps turns

end Unmarked

section Tagbodies

variable {context : Context} {s s' : CompileState} {depth : Nat} {form : Value} {code : Expr}
  {args : List Value}

/-- A tagbody without tags is a sequence; one with tags, none of which a `GO` was compiled for, is one
too; and all others are loops. -/
theorem tagbody_jumps (isTagbody : IsForm s.image.heap .tagbody args form)
    (standing : Standing context s)
    (room : s.counters.tags + args.length < Number.exactLimit)
    (compiled : compileWithin (depth + 1) context form s = .ok code s') :
    ∃ leading segments, Divides args leading segments ∧
      if segments = [] then
        ∃ codes middle, args.mapM (compileWithin depth context.single) s = .ok codes middle ∧
          RunsCodes codes code
      else ∃ last, ∃ parts : TagbodyParts depth context leading segments s last, Aligned parts ∧
        (∀ branch later, freshVariable "branch" last = .ok branch later → Performs parts branch) ∧
        (∀ {context' : Context} {t t' : CompileState} {depth' m label : Nat} {form' tag : Value}
            {binding : Binding} {code' : Expr},
          IsForm t.image.heap .go [tag] form' → context'.env.lookup? tag .tags = some binding →
          parts.tags[m]? = some (label, binding) →
          compileWithin (depth' + 1) context' form' t = .ok code' t' →
          Later parts.third t → Later t' last → parts.used = true) ∧
        if parts.used then
          ∃ branch, freshVariable "branch" last = .ok branch s' ∧ code = (parts.tagbody branch).code
        else Unlooped parts code := by
  obtain ⟨leading, segments, divides, compiled⟩ := compile_tagbody isTagbody compiled
  refine ⟨leading, segments, divides, ?_⟩
  rw [← divides.items] at room
  by_cases none_ : segments = []
  · rw [if_pos none_] at compiled ⊢
    exact compile_untagged compiled
  · rw [if_neg none_] at compiled ⊢
    obtain ⟨last, parts, code_eq⟩ := compile_tagged compiled
    refine ⟨last, parts, parts.aligned room,
      fun branch later new => parts.performs standing room none_ new, ?_, ?_⟩
    · intro context' t t' depth' m label form' tag binding code' isGo found at_ compiled' before after
      have member := List.mem_of_getElem? at_
      obtain ⟨-, -, -, known⟩ := parts.labels_eq room
      obtain ⟨-, marked⟩ := compile_go isGo found (known _ member).2 compiled'
      exact parts.used_of_go member marked before after
    · cases used : parts.used with
      | true => rwa [used, if_pos rfl] at code_eq
      | false =>
          rw [used, if_neg Bool.false_ne_true] at code_eq
          rw [code_eq.1, if_neg Bool.false_ne_true]
          exact parts.unlooped isTagbody divides standing room none_ used

/-- The cells of `(TAGBODY NIL (GO NIL))`. -/
def spinningCells : List Cell :=
  [⟨.symbol SpecialForm.tagbody.symbol, .cons 1⟩, ⟨.nil, .cons 2⟩, ⟨.cons 3, .nil⟩,
    ⟨.symbol SpecialForm.go.symbol, .cons 4⟩, ⟨.nil, .nil⟩]

theorem tagbody_jumps_of_nil :
    let s := CompileState.reading spinningCells
    IsForm s.image.heap .tagbody [.nil, .cons 3] (.cons 0) ∧
      ∃ code s', compileWithin 4 .toplevel (.cons 0) s = .ok code s' ∧
        ∃ last, ∃ parts : TagbodyParts 3 .toplevel [] [(.nil, [.cons 3])] s last, Aligned parts ∧
          (∀ branch later, freshVariable "branch" last = .ok branch later →
            Performs parts branch) ∧
          parts.used = true ∧ ∃ branch, freshVariable "branch" last = .ok branch s' ∧
            code = (parts.tagbody branch).code := by
  intro s
  have isTagbody : IsForm s.image.heap .tagbody [.nil, .cons 3] (.cons 0) := ⟨0, rfl, rfl, rfl⟩
  have compiled : ∃ code s', compileWithin 4 .toplevel (.cons 0) s = .ok code s' := ⟨_, _, rfl⟩
  obtain ⟨code, s', compiled⟩ := compiled
  obtain ⟨leading, segments, divides, jumps⟩ := tagbody_jumps isTagbody
    (CompileState.standing_reading spinningCells) (by decide) compiled
  cases divides.unique
  rw [if_neg (List.cons_ne_nil _ _)] at jumps
  obtain ⟨last, parts, aligned, performs, -, code_eq⟩ := jumps
  have used : parts.used = true := by
    obtain ⟨token, loopLabel, start, tags, bodies, first, second, third, fresh, started, bound,
      compiledSections⟩ := parts
    cases fresh
    cases started
    cases bound
    cases compiledSections
    rfl
  rw [if_pos used] at code_eq
  exact ⟨isTagbody, code, s', compiled, last, parts, aligned, performs, used, code_eq⟩

end Tagbodies

end LispScript
