import LispScript.Proofs.Tagbody

/-!
From a `TAGBODY` form to its code, and `GO`. The forms between two tags make a section; a `GO` is an
exit that carries the label of its tag's section to the activation whose variable it sees.
-/

namespace LispScript

open Script Compiler Machine Discipline

section Items

variable {form item : Value} {s s' : CompileState} {args : List Value}

/-- Whether an item of a tagbody is a tag. -/
def isTagItem : Value → Bool
  | .symbol _ | .nil | .number _ => true
  | _ => false

/-- An item that is accepted is a tag or a compound form. -/
theorem isTag_ok {found : Bool} (done : isTag form item s = .ok found s') :
    s' = s ∧ found = isTagItem item ∧ (isTagItem item = false → ∃ a, item = .cons a) := by
  cases item with
  | symbol id =>
      cases done
      exact ⟨rfl, rfl, fun absurd_ => by cases absurd_⟩
  | nil =>
      cases done
      exact ⟨rfl, rfl, fun absurd_ => by cases absurd_⟩
  | number n =>
      cases done
      exact ⟨rfl, rfl, fun absurd_ => by cases absurd_⟩
  | cons a =>
      cases done
      exact ⟨rfl, rfl, fun _ => ⟨a, rfl⟩⟩
  | _ => cases done

theorem items_ok {items : List (Value × Bool)}
    (done : (args.mapM fun item => do return (item, ← isTag form item)) s = .ok items s') :
    s' = s ∧ items = args.map (fun item => (item, isTagItem item)) ∧
      ∀ item ∈ args, isTagItem item = false → ∃ a, item = .cons a := by
  induction args generalizing items with
  | nil =>
      rw [List.mapM_nil] at done
      cases done
      exact ⟨rfl, rfl, fun _ member => absurd member List.not_mem_nil⟩
  | cons item rest ih =>
      rw [List.mapM_cons] at done
      obtain ⟨first, s₁, found, done⟩ := ok_of_bind done
      obtain ⟨kind, s₂, tested, found⟩ := ok_of_bind found
      cases found
      obtain ⟨others, s₃, more, done⟩ := ok_of_bind done
      cases done
      obtain ⟨rfl, rfl, compound⟩ := isTag_ok tested
      obtain ⟨rfl, rfl, all⟩ := ih more
      exact ⟨rfl, rfl, List.forall_mem_cons.mpr ⟨compound, all⟩⟩

/-- The items in order, from the forms before the first tag and the tags with the forms after them. -/
def assemble (leading : List Value) (segments : List (Value × List Value)) : List Value :=
  leading ++ segments.flatMap fun segment => segment.1 :: segment.2

/-- Items are only divided into segments, never moved. -/
theorem assemble_splitAtTags (items : List (Value × Bool)) :
    assemble (splitAtTags items).1 (splitAtTags items).2 = items.map Prod.fst := by
  induction items with
  | nil => rfl
  | cons item rest ih =>
      obtain ⟨value, tag⟩ := item
      cases tag with
      | true => simp [splitAtTags, assemble, ← ih]
      | false => simp [splitAtTags, assemble, ← ih]

/-- Segments begin with a tag, and there is none among the forms. -/
theorem splitAtTags_kinds (items : List (Value × Bool)) :
    (∀ item ∈ (splitAtTags items).1, (item, false) ∈ items) ∧
      ∀ segment ∈ (splitAtTags items).2, (segment.1, true) ∈ items ∧
        ∀ item ∈ segment.2, (item, false) ∈ items := by
  induction items with
  | nil => simp [splitAtTags]
  | cons item rest ih =>
      obtain ⟨value, tag⟩ := item
      obtain ⟨leading, segments⟩ := ih
      have later : ∀ segment ∈ (splitAtTags rest).2, (segment.1, true) ∈ (value, tag) :: rest ∧
          ∀ item ∈ segment.2, (item, false) ∈ (value, tag) :: rest := fun segment member =>
        ⟨.tail _ (segments segment member).1,
          fun item inside => .tail _ ((segments segment member).2 item inside)⟩
      cases tag with
      | true =>
          refine ⟨by simp [splitAtTags], ?_⟩
          simp only [splitAtTags, if_true, List.forall_mem_cons]
          exact ⟨⟨.head _, fun item inside => .tail _ (leading item inside)⟩, later⟩
      | false =>
          simp only [splitAtTags, Bool.false_eq_true, if_false, List.forall_mem_cons]
          exact ⟨⟨.head _, fun item inside => .tail _ (leading item inside)⟩, later⟩

end Items

section Compilation

variable {context : Context} {s s' : CompileState} {depth : Nat} {form : Value} {code : Expr}
  {args leading : List Value} {segments : List (Value × List Value)}

/-- The label of the forms before the first tag, if there are any. -/
def startLabel (leading : List Value) : Compile (List Nat) :=
  if leading.isEmpty then return [] else do return [← onCounters Counters.freshTag]

/-- The forms between the tags, those before the first tag in front if there are any. -/
def sectionForms (leading : List Value) (segments : List (Value × List Value)) :
    List (List Value) :=
  if leading.isEmpty then segments.map Prod.snd else leading :: segments.map Prod.snd

/-- Where the forms of a tagbody stand: in sight of its tags. -/
def inSight (context : Context) (tags : List (Nat × Binding)) : Context :=
  context.withEnv ((tags.map Prod.snd).reverse ++ context.env)

/-- The statements of forms that are evaluated for their effects. -/
def compileSection (depth : Nat) (context : Context) (forms : List Value) : Compile (List Stmt) := do
  return (← compileArgs (compileWithin depth) context forms).map .effect

/-- The parts of the code of a tagbody with tags, made in order. -/
structure TagbodyParts (depth : Nat) (context : Context) (leading : List Value)
    (segments : List (Value × List Value)) (s s' : CompileState) where
  token : String
  loopLabel : String
  start : List Nat
  tags : List (Nat × Binding)
  bodies : List (List Stmt)
  first : CompileState
  second : CompileState
  third : CompileState
  fresh : onCounters Counters.freshTagbody s = .ok (token, loopLabel) first
  started : startLabel leading first = .ok start second
  bound : bindTags token (segments.map Prod.fst) second = .ok tags third
  compiled : (sectionForms leading segments).mapM (compileSection depth (inSight context tags)) third =
    .ok bodies s'

/-- The code that is made of the parts. -/
def TagbodyParts.tagbody (parts : TagbodyParts depth context leading segments s s')
    (branch : String) : Tagbody :=
  ⟨parts.token, parts.loopLabel, branch, parts.start ++ parts.tags.map Prod.fst, parts.bodies⟩

/-- Whether a `GO` to one of the tags was compiled. -/
def TagbodyParts.used (parts : TagbodyParts depth context leading segments s s') : Bool :=
  parts.tags.any fun tag => (s'.bindings.declared tag.2).used

theorem anyM_used (tags : List (Nat × Binding)) :
    (tags.anyM fun tag => do return (← declared tag.2).used : Compile Bool) s =
      .ok (tags.any fun tag => (s.bindings.declared tag.2).used) s := by
  induction tags with
  | nil => rfl
  | cons tag rest ih =>
      rw [List.any_cons, List.anyM]
      change EStateM.bind (declared tag.2 >>= fun found => pure found.used) _ s = _
      have first : (declared tag.2 >>= fun found => pure found.used) s =
          .ok (s.bindings.declared tag.2).used s := rfl
      rw [EStateM.bind, first]
      cases (s.bindings.declared tag.2).used with
      | true => rfl
      | false => simpa using ih

/-- What is left to do once the variables and the label of the first forms are there. -/
def compileSections (depth : Nat) (context : Context) (leading : List Value)
    (segments : List (Value × List Value)) (token loopLabel : String) (start : List Nat) :
    Compile Expr := do
  let tags ← bindTags token (segments.map Prod.fst)
  let bodies ← (sectionForms leading segments).mapM (compileSection depth (inSight context tags))
  let used ← tags.anyM fun tag => do return (← declared tag.2).used
  if !used then return statementsExpr (bodies.flatten ++ [.ret .nil])
  let branch ← freshVariable "branch"
  return Tagbody.code ⟨token, loopLabel, branch, start ++ tags.map Prod.fst, bodies⟩

theorem compileTagged_eq : compileTagged (compileWithin depth) context leading segments =
    onCounters Counters.freshTagbody >>= fun names => startLabel leading >>= fun start =>
      compileSections depth context leading segments names.1 names.2 start := by
  unfold compileTagged
  congr 1
  funext names
  cases leading with
  | nil => rfl
  | cons first rest =>
      have start : startLabel (first :: rest) =
          onCounters Counters.freshTag >>= fun label => pure [label] := rfl
      rw [start, bind_assoc]
      rfl

theorem compile_tagged
    (compiled : compileTagged (compileWithin depth) context leading segments s = .ok code s') :
    ∃ last, ∃ parts : TagbodyParts depth context leading segments s last,
      if parts.used then ∃ branch, freshVariable "branch" last = .ok branch s' ∧
        code = (parts.tagbody branch).code
      else code = (parts.tagbody "").straight ∧ s' = last := by
  rw [compileTagged_eq] at compiled
  obtain ⟨⟨token, loopLabel⟩, first, fresh, compiled⟩ := ok_of_bind compiled
  obtain ⟨start, second, started, compiled⟩ := ok_of_bind compiled
  obtain ⟨tags, third, bound, compiled⟩ := ok_of_bind compiled
  obtain ⟨bodies, last, made, compiled⟩ := ok_of_bind compiled
  obtain ⟨used, last', asked, compiled⟩ := ok_of_bind compiled
  obtain ⟨rfl, rfl⟩ := EStateM.Result.ok.inj ((anyM_used tags).symm.trans asked)
  obtain ⟨parts, tags_eq, code_eq⟩ : ∃ parts : TagbodyParts depth context leading segments s last,
      parts.tags = tags ∧ ∀ branch, parts.tagbody branch =
        ⟨token, loopLabel, branch, start ++ tags.map Prod.fst, bodies⟩ :=
    ⟨⟨token, loopLabel, start, tags, bodies, first, second, third, fresh, started, bound, made⟩, rfl,
      fun _ => rfl⟩
  subst tags_eq
  refine ⟨last, parts, ?_⟩
  change (if !parts.used then _ else _ : Compile Expr) last = _ at compiled
  cases used : parts.used with
  | true =>
      rw [used] at compiled
      obtain ⟨branch, later, new, compiled⟩ := ok_of_bind compiled
      cases compiled
      exact ⟨branch, new, congrArg Tagbody.code (code_eq branch).symm⟩
  | false =>
      rw [used] at compiled
      cases compiled
      exact ⟨congrArg Tagbody.straight (code_eq "").symm, rfl⟩

end Compilation

section Labels

variable {context : Context} {s s' : CompileState} {depth : Nat} {token : String}
  {leading names : List Value} {segments : List (Value × List Value)}

theorem freshTag_ok {label : Nat} (room : s.counters.tags + 1 < Number.exactLimit)
    (done : onCounters Counters.freshTag s = .ok label s') :
    label = s.counters.tags + 1 ∧ s'.counters.tags = s.counters.tags + 1 := by
  obtain ⟨-, rfl, rfl⟩ := onCounters_ok done
  have small : Number.exactLimit ≤ Number.wordLimit := by decide
  have next_eq : next s.counters.tags = s.counters.tags + 1 := by
    unfold next
    omega
  exact ⟨next_eq, next_eq⟩

theorem startLabel_ok {start : List Nat}
    (room : s.counters.tags + leading.length < Number.exactLimit)
    (done : startLabel leading s = .ok start s') :
    start = List.range' (s.counters.tags + 1) start.length ∧
      s'.counters.tags = s.counters.tags + start.length ∧
      start.length = if leading.isEmpty then 0 else 1 := by
  cases leading with
  | nil =>
      cases done
      exact ⟨rfl, rfl, rfl⟩
  | cons form rest =>
      obtain ⟨label, later, made, done⟩ := ok_of_bind done
      cases done
      have room : s.counters.tags + 1 < Number.exactLimit := by
        rw [List.length_cons] at room
        omega
      obtain ⟨rfl, counted⟩ := freshTag_ok room made
      exact ⟨rfl, counted, rfl⟩

/-- Tags get labels that follow each other, and bindings in order. -/
theorem bindTags_ok {tags : List (Nat × Binding)}
    (room : s.counters.tags + names.length < Number.exactLimit)
    (done : bindTags token names s = .ok tags s') :
    tags.map Prod.fst = List.range' (s.counters.tags + 1) names.length ∧
      tags.map (·.2.name) = names ∧
      ∀ tag ∈ tags, tag.2.space = .tags ∧ tag.2.reference = .tag token tag.1 := by
  induction names generalizing s tags with
  | nil =>
      cases done
      exact ⟨rfl, rfl, fun _ member => absurd member List.not_mem_nil⟩
  | cons name rest ih =>
      rw [List.length_cons] at room
      rw [bindTags] at done
      obtain ⟨label, s₁, made, done⟩ := ok_of_bind done
      obtain ⟨binding, s₂, bound, done⟩ := ok_of_bind done
      obtain ⟨others, s₃, more, done⟩ := ok_of_bind done
      cases done
      obtain ⟨rfl, counted⟩ := freshTag_ok (by omega) made
      cases bound
      have room : s₁.counters.tags + rest.length < Number.exactLimit := by omega
      obtain ⟨labels, names_eq, all⟩ := ih (by exact room) more
      refine ⟨?_, ?_, List.forall_mem_cons.mpr ⟨⟨rfl, rfl⟩, all⟩⟩
      · rw [List.map_cons, List.length_cons, List.range'_succ, labels]
        exact congrArg (_ :: List.range' · _) (congrArg (· + 1) counted)
      · rw [List.map_cons, names_eq]

theorem sectionForms_length :
    (sectionForms leading segments).length = (if leading.isEmpty then 0 else 1) + segments.length := by
  cases leading with
  | nil => simp [sectionForms]
  | cons form rest => simp [sectionForms, Nat.add_comm]

theorem assemble_length :
    (sectionForms leading segments).length ≤ (assemble leading segments).length := by
  rw [sectionForms_length, assemble, List.length_append]
  have items : segments.length ≤
      (segments.flatMap fun segment => segment.1 :: segment.2).length := by simp
  cases leading with
  | nil => simp
  | cons form rest =>
      rw [List.isEmpty_cons, if_neg Bool.false_ne_true, List.length_cons]
      omega

variable (parts : TagbodyParts depth context leading segments s s')

theorem TagbodyParts.labels_eq
    (room : s.counters.tags + (assemble leading segments).length < Number.exactLimit) :
    parts.start ++ parts.tags.map Prod.fst =
        List.range' (s.counters.tags + 1) (sectionForms leading segments).length ∧
      parts.start.length = (if leading.isEmpty then 0 else 1) ∧
      parts.tags.map (·.2.name) = segments.map Prod.fst ∧
      ∀ tag ∈ parts.tags, tag.2.space = .tags ∧ tag.2.reference = .tag parts.token tag.1 := by
  have enough := @assemble_length leading segments
  have shape := @sectionForms_length leading segments
  obtain ⟨-, -, first_eq⟩ := onCounters_ok parts.fresh
  have counted : parts.first.counters.tags = s.counters.tags := by
    rw [first_eq]
    rfl
  have leading_le : leading.length ≤ (assemble leading segments).length := by
    rw [assemble, List.length_append]
    omega
  obtain ⟨start_eq, second_eq, start_length⟩ := startLabel_ok (by omega) parts.started
  rw [← start_length] at shape
  have names_length : (segments.map Prod.fst).length = segments.length := List.length_map _
  obtain ⟨tags_eq, names_eq, all⟩ := bindTags_ok (by omega) parts.bound
  refine ⟨?_, start_length, names_eq, all⟩
  rw [tags_eq, shape, ← List.range'_append_1, names_length, second_eq, counted]
  rw [counted] at start_eq
  rw [← start_eq, Nat.add_right_comm]

end Labels

section Forming

variable {context : Context} {s s' last : CompileState} {depth : Nat} {leading : List Value}
  {segments : List (Value × List Value)} {spared : String → Prop}

theorem compileSection_spares (apart : Apart spared context.env) (forms : List Value) :
    Spares spared (compileSection depth context forms) fun body =>
      Free spared (Stmt.assignedAll body) := by
  refine .bind (compileArgs_spares (compileWithin_spares depth) apart forms) fun codes free => ?_
  apply Spares.pure
  rwa [Stmt.assignedAll_effects]

theorem startLabel_spares (leading : List Value) : Plain spared (startLabel leading) := by
  unfold startLabel
  split
  · exact .pure trivial
  · exact .bind .freshTag fun _ _ => .pure trivial

/-- Sections have one body each, of statements that are evaluated for their effects. -/
theorem compileSections_effects {context : Context} {sections : List (List Value)}
    {bodies : List (List Stmt)}
    (done : sections.mapM (compileSection depth context) s = .ok bodies s') :
    bodies.length = sections.length ∧ ∀ body ∈ bodies, ∀ stmt ∈ body, ∃ code, stmt = .effect code := by
  induction sections generalizing s bodies with
  | nil =>
      rw [List.mapM_nil] at done
      cases done
      exact ⟨rfl, fun _ member => absurd member List.not_mem_nil⟩
  | cons forms rest ih =>
      rw [List.mapM_cons] at done
      obtain ⟨body, s₁, first, done⟩ := ok_of_bind done
      obtain ⟨others, s₂, more, done⟩ := ok_of_bind done
      cases done
      obtain ⟨codes, s₃, -, first⟩ := ok_of_bind first
      cases first
      obtain ⟨lengths, all⟩ := ih more
      refine ⟨congrArg (· + 1) lengths, List.forall_mem_cons.mpr ⟨?_, all⟩⟩
      intro stmt member
      obtain ⟨code, -, rfl⟩ := List.mem_map.mp member
      exact ⟨code, rfl⟩

variable (parts : TagbodyParts depth context leading segments s last)

/-- The variable that identifies a run of a tagbody is new, and no form assigns to it. -/
theorem TagbodyParts.holding (standing : Standing context s) :
    Holding parts.token (.array []) parts.bodies.flatten ∧
      Made s.counters last.counters parts.token ∧ Sparing (· = "values") last := by
  have made : Made s.counters parts.first.counters parts.token := by
    obtain ⟨changed, names_eq, first_eq⟩ := onCounters_ok parts.fresh
    have token_eq : parts.token = "tb" ++ toString (next s.counters.tagbodies) :=
      congrArg Prod.fst names_eq
    have later : s.counters.tagbodies < next s.counters.tagbodies :=
      lt_next standing.sparing.bounded.tagbodies fun same =>
        changed (congrArg (fun n => { s.counters with tagbodies := n }) same)
    rw [token_eq, first_eq]
    exact .tagbody _ later (Nat.le_refl _)
  have since : Since s parts.first (kept parts.token) := .one _ made
  obtain ⟨-, sparing⟩ := Sparing.after .freshTagbody standing.sparing parts.fresh
  have steps : ∀ {spared : String → Prop}, Apart spared context.env →
      Spares spared (startLabel leading >>= fun start =>
        bindTags parts.token (segments.map Prod.fst) >>= fun tags =>
          (sectionForms leading segments).mapM (compileSection depth (inSight context tags)))
        fun bodies => ∀ body ∈ bodies, Free spared (Stmt.assignedAll body) := fun apart =>
    .bind (startLabel_spares leading) fun _ _ => .bind (bindTags_spares _ _) fun tags known =>
      .mapM _ fun forms _ => compileSection_spares (apart.tags known) forms
  have done : (startLabel leading >>= fun start =>
      bindTags parts.token (segments.map Prod.fst) >>= fun tags =>
        (sectionForms leading segments).mapM (compileSection depth (inSight context tags)))
      parts.first = .ok parts.bodies last := by
    change EStateM.bind _ _ parts.first = _
    rw [EStateM.bind, parts.started]
    change EStateM.bind _ _ parts.second = _
    rw [EStateM.bind, parts.bound]
    exact parts.compiled
  have free := standing.code since sparing steps done
  have apart : Apart (· = "values") context.env := fun name hosts same =>
    standing.apart since name hosts (.inl same)
  obtain ⟨leads, later⟩ := Sparing.after (steps apart) sparing done
  obtain ⟨-, effects⟩ := compileSections_effects parts.compiled
  refine ⟨holding_of_made made free_nil (free_flatten free) ?_, made.left leads, later⟩
  have all : ∀ stmt ∈ parts.bodies.flatten, ∃ code, stmt = .effect code := by
    intro stmt member
    obtain ⟨body, inside, member⟩ := List.mem_flatten.mp member
    exact effects body inside stmt member
  rw [declaredAll_of_effects all]
  exact free_nil

/-- The code of a tagbody is well-formed. -/
theorem TagbodyParts.wellFormed {branch : String} (standing : Standing context s)
    (room : s.counters.tags + (assemble leading segments).length < Number.exactLimit)
    (some_ : segments ≠ []) (new : freshVariable "branch" last = .ok branch s') :
    (parts.tagbody branch).WellFormed := by
  obtain ⟨holding, token, sparing⟩ := parts.holding standing
  have made := freshVariable_made sparing new
  obtain ⟨labels, -, -, -⟩ := parts.labels_eq room
  obtain ⟨lengths, effects⟩ := compileSections_effects parts.compiled
  have enough := @assemble_length leading segments
  have shape := @sectionForms_length leading segments
  have positive := List.length_pos_iff.mpr some_
  constructor
  case nonempty =>
    change 0 < parts.bodies.length
    omega
  case sizes =>
    change (parts.start ++ parts.tags.map Prod.fst).length = parts.bodies.length
    rw [labels, List.length_range', lengths]
  case distinct =>
    change (parts.start ++ parts.tags.map Prod.fst).Nodup
    rw [labels]
    exact List.nodup_range'
  case small =>
    change ∀ label ∈ parts.start ++ parts.tags.map Prod.fst, _
    rw [labels]
    intro label member
    obtain ⟨-, below⟩ := List.mem_range'_1.mp member
    omega
  case effects => exact effects
  case holding => exact holding
  case branch_ne_token =>
    intro same
    have same : branch = parts.token := same
    subst same
    exact token.disjoint made
  case branch_ne_values =>
    intro same
    have same : branch = "values" := same
    subst same
    exact made.unreserved values_reserved
  case branch_ne_signal =>
    intro same
    have same : branch = "cf" := same
    subst same
    exact made.unreserved (by decide)

end Forming

section Going

variable {context : Context} {s s' : CompileState} {depth steps turns d label : Nat}
  {form tag target : Value} {code : Expr} {binding : Binding} {token text : String} {i : Image}

/-- The code of a `GO` form is an exit that carries the label of the tag, which is marked as used. -/
theorem compile_go (isGo : IsForm s.image.heap .go [tag] form)
    (found : context.env.lookup? tag .tags = some binding)
    (reference : binding.reference = .tag token label)
    (compiled : compileWithin (depth + 1) context form s = .ok code s') :
    (∃ text, code = raiseTransfer .tagbody (.ident token) (labelExpr label) (.string text)) ∧
      markUsed binding s = .ok () s' := by
  rw [compileWithin_special isGo] at compiled
  simp only [compileSpecial, compileGo, found, reference] at compiled
  obtain ⟨_, marked, done, compiled⟩ := ok_of_bind compiled
  cases compiled
  exact ⟨⟨_, rfl⟩, done⟩

/-- The image in which the exit of a `GO` is under way. -/
def goingImage (image : Image) (d : Nat) (target : Value) (label : Nat) (text : String) : Image :=
  raisedImage (Image.moreStrings (image.inside d) 1) .tagbody target (labelValue label) text

/-- A `GO` exits to the activation whose variable it sees. -/
theorem go_eval (ordered : Ordered i.heap) (bound : d < i.heap.scopes.size)
    (token_ne : token ≠ "arguments") (held : i.heap.lookupVariable? d token = some target) :
    evalExpr (callWithin (steps + 1)) turns d
        (raiseTransfer .tagbody (.ident token) (labelExpr label) (.string text)) i =
      .error (.thrown (.transfer i.heap.transfers.size)) (goingImage i d target label text) := by
  have value : evalExpr (callWithin (steps + 1)) turns i.heap.scopes.size (labelExpr label)
      (Image.moreStrings (i.inside d) 1) =
      .ok (labelValue label) (Image.moreStrings (i.inside d) 1) := by
    rw [labelExpr, evalExpr]
    rfl
  rw [raise_eval ordered bound token_ne List.not_mem_nil held, value]
  rfl

end Going

section Performing

variable {context : Context} {s s' last : CompileState} {depth : Nat} {leading : List Value}
  {segments : List (Value × List Value)}

/-- How a tagbody with a loop runs. -/
structure Performs (parts : TagbodyParts depth context leading segments s last)
    (branch : String) : Prop where
  /-- It begins with the first of its forms. -/
  begins : ∀ {steps turns b : Nat} {image : Image}, Ordered image.heap →
    b < image.heap.scopes.size →
    ∃ i, (parts.tagbody branch).Reaches steps turns b image
      (.vector (image.heap.vectors.size + 1)) turns 0 i
  /-- Where its forms come to the end, it gives `NIL`. -/
  ends : ∀ {steps turns b left n : Nat} {image i k : Image} {target : Value} {flow : Flow},
    (parts.tagbody branch).Reaches steps turns b image target (left + 1) n i →
    execBlock (callWithin (steps + 1)) turns image.heap.scopes.size
      ((parts.tagbody branch).after n) i = .ok flow k →
    evalExpr (callWithin (steps + 1)) turns b (parts.tagbody branch).code image = .ok .nil k
  /-- A `GO` from wherever the activation is seen goes on with the forms after the tag. -/
  goes_on : ∀ {context' : Context} {t t' : CompileState} {depth' label m : Nat}
      {form tag : Value} {binding : Binding} {code : Expr},
    IsForm t.image.heap .go [tag] form → context'.env.lookup? tag .tags = some binding →
    parts.tags[m]? = some (label, binding) →
    compileWithin (depth' + 1) context' form t = .ok code t' →
    ∃ text, ∀ {steps turns b left n steps' turns' d : Nat} {image i j k : Image} {target : Value}
        {pending : List Layer},
      (parts.tagbody branch).Reaches steps turns b image target (left + 1) n i →
      Active (evalExpr (callWithin (steps' + 1)) turns' d code) j
        (execBlock (callWithin (steps + 1)) turns image.heap.scopes.size
          ((parts.tagbody branch).after n)) i pending →
      Ordered j.heap → d < j.heap.scopes.size →
      j.heap.lookupVariable? d parts.token = some target →
      Passes .tagbody target j.heap.transfers.size pending (goingImage j d target label text) k →
      ∃ i', (parts.tagbody branch).Reaches steps turns b image target left
        (parts.start.length + m) i'
  /-- Every other exit passes. -/
  passes : ∀ {steps turns b left n : Nat} {image i k : Image} {target : Value} {a : Address},
    (parts.tagbody branch).Reaches steps turns b image target (left + 1) n i →
    execBlock (callWithin (steps + 1)) turns image.heap.scopes.size
      ((parts.tagbody branch).after n) i = .error (.thrown (.transfer a)) k →
    isFor .tagbody target (k.heap.transfer a) = false →
    evalExpr (callWithin (steps + 1)) turns b (parts.tagbody branch).code image =
      .error (.thrown (.transfer a)) (handlerImage k image.heap.scopes.size a)
  /-- Every failure passes. -/
  fails : ∀ {steps turns b left n : Nat} {image i k : Image} {target : Value}
      {interrupt : Interrupt},
    (parts.tagbody branch).Reaches steps turns b image target (left + 1) n i →
    execBlock (callWithin (steps + 1)) turns image.heap.scopes.size
      ((parts.tagbody branch).after n) i = .error interrupt k →
    (∀ thrown, interrupt ≠ .thrown thrown) →
    evalExpr (callWithin (steps + 1)) turns b (parts.tagbody branch).code image =
      .error interrupt k
  /-- A tagbody at work is one of those that an exit from inside has to go past. -/
  nests : ∀ {steps turns b left n : Nat} {image i j : Image} {target : Value} {β : Type}
      {x : Run β} {pending : List Layer},
    (parts.tagbody branch).Reaches steps turns b image target (left + 1) n i →
    Active x j (execBlock (callWithin (steps + 1)) turns image.heap.scopes.size
      ((parts.tagbody branch).after n)) i pending →
    Active x j (evalExpr (callWithin (steps + 1)) turns b (parts.tagbody branch).code) image
      (pending ++ [.exit image.heap.scopes.size .tagbody target])
  /-- An exit to one activation passes every other, of this tagbody or of another. -/
  spares : ∀ {steps turns b left n steps' turns' b' left' n' : Nat} {t : Tagbody}
      {image i image' i' k : Image} {target target' : Value} {a : Address},
    (parts.tagbody branch).Reaches steps turns b image target (left + 1) n i →
    t.Reaches steps' turns' b' image' target' left' n' i' →
    Adds i image' ∨ Adds i' image →
    execBlock (callWithin (steps + 1)) turns image.heap.scopes.size
      ((parts.tagbody branch).after n) i = .error (.thrown (.transfer a)) k →
    (k.heap.transfer a).target = target' →
    evalExpr (callWithin (steps + 1)) turns b (parts.tagbody branch).code image =
      .error (.thrown (.transfer a)) (handlerImage k image.heap.scopes.size a)

theorem TagbodyParts.performs (parts : TagbodyParts depth context leading segments s last)
    {branch : String} (standing : Standing context s)
    (room : s.counters.tags + (assemble leading segments).length < Number.exactLimit)
    (some_ : segments ≠ []) (new : freshVariable "branch" last = .ok branch s') :
    Performs parts branch := by
  have formed := parts.wellFormed standing room some_ new
  obtain ⟨-, made, -⟩ := parts.holding standing
  obtain ⟨-, -, -, known⟩ := parts.labels_eq room
  constructor
  case begins => exact fun ordered bound => Tagbody.Reaches.begins _ _ _ ordered bound
  case ends => exact fun reaches ended => reaches.ends formed ended
  case passes => exact fun reaches ended other => reaches.passes formed ended other
  case fails => exact fun reaches ended failure => reaches.fails formed ended failure
  case nests => exact fun reaches active => reaches.nests formed active
  case goes_on =>
    intro context' t t' depth' label m form tag binding code isGo found at_ compiled
    have reference := (known _ (List.mem_of_getElem? at_)).2
    obtain ⟨⟨text, rfl⟩, -⟩ := compile_go isGo found reference compiled
    refine ⟨text, ?_⟩
    intro steps turns b left n steps' turns' d image i j k target pending reaches active ordered
      bound held passes
    have token_ne : parts.token ≠ "arguments" := fun same =>
      made.unreserved (by rw [same]; decide)
    have leaves : Leaves (goingImage j d target label text).heap .tagbody target
        j.heap.transfers.size :=
      throwing_leaves _ _
    obtain ⟨crosses, adds⟩ := passes.crosses leaves
    have ended := active.crosses (go_eval ordered bound token_ne held) crosses
    have arrived := leaves.later adds
    have meant : isFor .tagbody target (k.heap.transfer j.heap.transfers.size) = true := by
      obtain ⟨rfl, -⟩ := reaches.vector
      rw [arrived.isFor_eq, strictEq_vector.mpr rfl]
      rfl
    have payload : (k.heap.transfer j.heap.transfers.size).payload = labelValue label := by
      rw [adds.transfer leaves.bound]
      exact congrArg Transfer.payload (throwing_transfer _ _)
    have found : (parts.start ++ parts.tags.map Prod.fst)[parts.start.length + m]? = some label := by
      rw [List.getElem?_append_right (Nat.le_add_right _ _), Nat.add_sub_cancel_left,
        List.getElem?_map, at_]
      rfl
    exact ⟨_, .go reaches ended meant found payload⟩
  case spares =>
    intro steps turns b left n steps' turns' b' left' n' t image i image' i' k target target' a
      reaches reaches' apart ended aims
    have other : target'.strictEq target = false := by
      rcases apart with adds | adds
      · exact (reaches.distinct reaches' adds.vectors).2
      · exact (reaches'.distinct reaches adds.vectors).1
    refine reaches.passes formed ended ?_
    rw [isFor, aims, other, Bool.and_false]

end Performing

section Through

variable {call : Caller} {turns b : Nat} {image : Image} {code : Expr}

/-- Code that runs statements once, in order, and gives `NIL` after them. -/
def RunsThrough (stmts : List Stmt) (code : Expr) : Prop :=
  ∀ (call : Caller) (turns b : Nat) (image : Image), evalExpr call turns b code image =
    if stmts = [] then .ok .nil image
    else (execBlock call turns image.heap.scopes.size stmts >>= fun _ => pure .nil)
      (image.inside b)

theorem statementsExpr_runsThrough {stmts : List Stmt}
    (effects : ∀ stmt ∈ stmts, ∃ code, stmt = .effect code) :
    RunsThrough stmts (statementsExpr (stmts ++ [.ret .nil])) := by
  intro call turns b image
  cases stmts with
  | nil => rfl
  | cons stmt rest =>
      obtain ⟨code, rfl⟩ := effects stmt List.mem_cons_self
      have wrapped : statementsExpr (.effect code :: rest ++ [.ret .nil]) =
          .wrap (.effect code :: rest ++ [.ret .nil]) := rfl
      rw [wrapped, evalExpr_wrap, execBlock_append, bind_assoc, if_neg (List.cons_ne_nil _ _)]
      change EStateM.bind _ _ _ = EStateM.bind _ _ _
      rw [EStateM.bind, EStateM.bind]
      cases ended : execBlock call turns image.heap.scopes.size (.effect code :: rest)
          (image.inside b) with
      | error interrupt k => rfl
      | ok flow k =>
          cases execBlock_normal effects ended
          rfl

theorem evalList_append_nil (codes : List Expr) :
    (evalList call turns b (codes ++ [.nil]) >>= fun values =>
      pure (values.getLast?.getD .undefined)) =
      evalList call turns b codes >>= fun _ => pure .nil := by
  have last : ∀ values : List Value, (values ++ [Value.nil]).getLast?.getD .undefined = .nil := by
    simp
  have shape : evalList call turns b (codes ++ [.nil]) =
      evalList call turns b codes >>= fun values => pure (values ++ [.nil]) := by
    induction codes with
    | nil =>
        have value : evalExpr call turns b .nil = pure .nil := by
          rw [Expr.nil, evalExpr]
          rfl
        simp only [List.nil_append, evalList, value, pure_bind]
    | cons code rest ih =>
        simp only [List.cons_append, evalList, ih, bind_assoc, pure_bind]
  simp only [shape, bind_assoc, pure_bind, last]

/-- Code that evaluates others once, in order, and gives `NIL` after them; those that are left out
would have had no effect. -/
structure RunsCodes (codes : List Expr) (code : Expr) : Prop where
  outcome : ∀ (call : Caller) (turns b : Nat) (image : Image), evalExpr call turns b code image =
    (evalList call turns b (effectiveCodes codes) >>= fun _ => pure .nil) image
  omitted : ∀ task ∈ codes, task ∉ effectiveCodes codes →
    ∀ (call : Caller) (turns : Nat) (b : Address) (value : Value) (image later : Image),
      evalExpr call turns b task image = .ok value later → OnlyAllocates image later

theorem compile_untagged {context : Context} {s s' : CompileState} {depth : Nat}
    {args : List Value}
    (compiled : compileProgn (compileWithin depth) context (args ++ [.nil]) s = .ok code s') :
    ∃ codes middle, args.mapM (compileWithin depth context.single) s = .ok codes middle ∧
      RunsCodes codes code := by
  simp only [compileProgn, List.getLast?_concat, List.dropLast_concat] at compiled
  obtain ⟨effects, middle, compiledEffects, compiled⟩ := ok_of_bind compiled
  obtain ⟨value, later, compiledNil, compiled⟩ := ok_of_bind compiled
  simp only [compileEffects] at compiledEffects
  obtain ⟨codes, after, compiledCodes, filtered⟩ := ok_of_bind compiledEffects
  cases filtered
  have value_eq : value = .nil := by
    cases depth with
    | zero => cases compiledNil
    | succ depth =>
        cases compiledNil
        rfl
  subst value_eq
  cases compiled
  refine ⟨codes, middle, compiledCodes, ?_, ?_⟩
  · intro call turns b image
    change evalExpr call turns b (if (effectiveCodes codes).isEmpty then _ else
      .comma (effectiveCodes codes ++ [.nil])) image = _
    cases some_ : effectiveCodes codes with
    | nil => rfl
    | cons first rest =>
        rw [List.isEmpty_cons, if_neg Bool.false_ne_true, evalExpr, evalList_append_nil]
  · intro task member out _ _ _ _ _ _ done
    have constant : task.isConstant = true := by
      simpa [effectiveCodes, member] using out
    exact OnlyAllocates.of_isConstant constant done

end Through

section Tagbodies

variable {context : Context} {s s' last : CompileState} {depth : Nat} {form : Value} {code : Expr}
  {args leading : List Value} {segments : List (Value × List Value)}

/-- How the items of a tagbody are divided: in place, at the tags. -/
structure Divides (args leading : List Value) (segments : List (Value × List Value)) : Prop where
  items : assemble leading segments = args
  tags : ∀ segment ∈ segments, isTagItem segment.1
  leading : ∀ item ∈ leading, ∃ a, item = .cons a
  forms : ∀ segment ∈ segments, ∀ item ∈ segment.2, ∃ a, item = .cons a

/-- Forms in front of the first tag stay in front of it. -/
theorem splitAtTags_append (items : List (Value × Bool)) :
    splitAtTags (leading.map (·, false) ++ items) =
      (leading ++ (splitAtTags items).1, (splitAtTags items).2) := by
  induction leading with
  | nil => rfl
  | cons form rest ih => simp [splitAtTags, ih]

theorem splitAtTags_assemble :
    splitAtTags (segments.flatMap fun segment => (segment.1, true) :: segment.2.map (·, false)) =
      ([], segments) := by
  induction segments with
  | nil => rfl
  | cons segment rest ih => simp [splitAtTags, splitAtTags_append, ih]

theorem marked_forms {forms : List Value} (compound : ∀ item ∈ forms, ∃ a, item = .cons a) :
    forms.map (fun item => (item, isTagItem item)) = forms.map (·, false) := by
  refine List.map_congr_left fun item member => ?_
  obtain ⟨a, rfl⟩ := compound item member
  rfl

/-- There is one way to divide the items of a tagbody. -/
theorem Divides.unique (divides : Divides args leading segments) :
    splitAtTags (args.map fun item => (item, isTagItem item)) = (leading, segments) := by
  have parts : (segments.flatMap fun segment => segment.1 :: segment.2).map
      (fun item => (item, isTagItem item)) =
      segments.flatMap fun segment => (segment.1, true) :: segment.2.map (·, false) := by
    rw [List.map_flatMap]
    refine List.flatMap_congr fun segment member => ?_
    rw [List.map_cons, divides.tags segment member, marked_forms (divides.forms segment member)]
  rw [← divides.items, assemble, List.map_append, marked_forms divides.leading, parts,
    splitAtTags_append, splitAtTags_assemble, List.append_nil]

/-- How tags and sections belong together. -/
structure Aligned (parts : TagbodyParts depth context leading segments s last) : Prop where
  /-- The forms that follow a tag are the section that its label is for. -/
  sections : ∀ m : Nat, (sectionForms leading segments)[parts.start.length + m]? =
    segments[m]?.map Prod.snd
  /-- The forms see every tag that is told from the ones after it. -/
  sees : ∀ (m : Nat) (tag : Value), (segments.map Prod.fst)[m]? = some tag → tag.eql tag →
    (∀ (n : Nat) (other : Value), m < n → (segments.map Prod.fst)[n]? = some other →
      other.eql tag = false) →
    ∃ label binding, parts.tags[m]? = some (label, binding) ∧
      (inSight context parts.tags).env.lookup? tag .tags = some binding

theorem find?_reverse {items : List α} {p : α → Bool} {m : Nat} {a : α}
    (found : items[m]? = some a) (holds : p a)
    (later : ∀ (n : Nat) (b : α), m < n → items[n]? = some b → p b = false) :
    items.reverse.find? p = some a := by
  obtain ⟨bound, at_⟩ := List.getElem?_eq_some_iff.mp found
  have split : items = items.take m ++ a :: items.drop (m + 1) := by
    rw [← at_, List.getElem_cons_drop, List.take_append_drop]
  have none_ : (items.drop (m + 1)).reverse.find? p = none := by
    rw [List.find?_eq_none]
    intro b member
    obtain ⟨n, found⟩ := List.mem_iff_getElem?.mp (List.mem_reverse.mp member)
    rw [List.getElem?_drop] at found
    simp [later (m + 1 + n) b (by omega) found]
  rw [split, List.reverse_append, List.reverse_cons, List.append_assoc, List.find?_append, none_]
  simp [holds]

theorem TagbodyParts.aligned (parts : TagbodyParts depth context leading segments s last)
    (room : s.counters.tags + (assemble leading segments).length < Number.exactLimit) :
    Aligned parts := by
  obtain ⟨-, start_length, names, known⟩ := parts.labels_eq room
  constructor
  case sections =>
    intro m
    rw [start_length]
    cases leading with
    | nil => simp [sectionForms]
    | cons first rest =>
        rw [List.isEmpty_cons, if_neg Bool.false_ne_true, Nat.add_comm]
        simp [sectionForms]
  case sees =>
    intro m tag named same distinct
    rw [← names, List.getElem?_map] at named
    obtain ⟨⟨label, binding⟩, at_, rfl⟩ := Option.map_eq_some_iff.mp named
    refine ⟨label, binding, at_, ?_⟩
    change (((parts.tags.map Prod.snd).reverse ++ context.env).find? fun other =>
      other.space == .tags && other.name.eql binding.name) = some binding
    have space := (known _ (List.mem_of_getElem? at_)).1
    rw [List.find?_append, @find?_reverse _ _ _ m binding]
    · rfl
    · rw [List.getElem?_map, at_]
      rfl
    · rw [space, same]
      rfl
    · intro n other after found
      rw [List.getElem?_map] at found
      obtain ⟨entry, inside, rfl⟩ := Option.map_eq_some_iff.mp found
      have name_at : (segments.map Prod.fst)[n]? = some entry.2.name := by
        rw [← names, List.getElem?_map, inside]
        rfl
      rw [distinct n _ after name_at, Bool.and_false]

theorem compile_tagbody (isTagbody : IsForm s.image.heap .tagbody args form)
    (compiled : compileWithin (depth + 1) context form s = .ok code s') :
    ∃ leading segments, Divides args leading segments ∧
      (if segments = [] then compileProgn (compileWithin depth) context (args ++ [.nil])
        else compileTagged (compileWithin depth) context leading segments) s = .ok code s' := by
  rw [compileWithin_special isTagbody] at compiled
  simp only [compileSpecial, compileTagbody] at compiled
  obtain ⟨items, s₁, kinds, chosen⟩ := ok_of_bind compiled
  obtain ⟨rfl, items_eq, compound⟩ := items_ok kinds
  have whole := assemble_splitAtTags items
  obtain ⟨leadingKinds, segmentKinds⟩ := splitAtTags_kinds items
  have plain : ∀ item, (item, false) ∈ items → ∃ a, item = .cons a := by
    intro item member
    rw [items_eq] at member
    obtain ⟨found, inside, same⟩ := List.mem_map.mp member
    obtain ⟨rfl, kind⟩ := Prod.mk.inj same
    exact compound found inside kind
  refine ⟨(splitAtTags items).1, (splitAtTags items).2, ⟨?_, ?_, ?_, ?_⟩, ?_⟩
  · rw [whole, items_eq, List.map_map]
    exact List.map_id _
  · intro segment member
    have tag := (segmentKinds segment member).1
    rw [items_eq] at tag
    obtain ⟨found, -, same⟩ := List.mem_map.mp tag
    obtain ⟨rfl, kind⟩ := Prod.mk.inj same
    exact kind
  · exact fun item member => plain item (leadingKinds item member)
  · exact fun segment member item inside => plain item ((segmentKinds segment member).2 item inside)
  · cases divided : splitAtTags items with
    | mk leading segments =>
        rw [divided] at chosen
        cases segments with
        | nil => exact chosen
        | cons segment rest => exact chosen

end Tagbodies

end LispScript
