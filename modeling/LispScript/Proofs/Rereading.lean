import LispScript.Proofs.Lowering

/-!
What is read of the same conses later. Lambda lists and bodies that were there when a macro was defined
are read while its expander is compiled, when there are more conses; nothing else is read of them then.
-/

namespace LispScript.Compiler

variable {s r r' : CompileState} {form : Value} {forms items : List Value}

section Bodies

/-- What is read of conses that were there is read of them earlier. -/
def ReadBefore {α : Type} (s r : CompileState) (step : Compile α) : Prop :=
  ∀ a r', step r = .ok a r' → step s = .ok a s ∧ r' = r

theorem ReadBefore.bind {α β : Type} {step : Compile α} {next : α → Compile β}
    (first : ReadBefore s r step) (second : ∀ a, step r = .ok a r → ReadBefore s r (next a)) :
    ReadBefore s r (step >>= next) := by
  intro b r' ok
  obtain ⟨a, r₁, done, rest⟩ := ok_of_bind ok
  obtain ⟨before, rfl⟩ := first a r₁ done
  obtain ⟨after, same⟩ := second a done b r' rest
  exact ⟨(bind_ended before).trans after, same⟩

theorem ReadBefore.pure {α : Type} (a : α) : ReadBefore s r (Pure.pure a) := by
  intro b r' ok
  cases ok
  exact ⟨rfl, rfl⟩

theorem ReadBefore.malformed {α : Type} (form : Value) (reason : String) :
    ReadBefore (α := α) s r (malformed form reason) := by
  intro a r' ok
  obtain ⟨_, _, -, thrown⟩ := ok_of_bind ok
  cases thrown

theorem addDeclared_before (form : Value) (kind : SymbolId) (names : List Value) (specs : DeclSpecs) :
    ReadBefore s r (addDeclared form kind specs names) := by
  induction names generalizing specs with
  | nil => exact .pure _
  | cons name rest ih =>
      rw [addDeclared]
      split
      · exact ih _
      · exact .malformed _ _

variable (closed : s.image.heap.Closed) (keeps : s.image.heap.Keeps r.image.heap)

include closed keeps

theorem addSpecifiers_before (form : Value) (specifiers : List Value)
    (there : ∀ specifier ∈ specifiers, s.image.heap.There specifier) (specs : DeclSpecs) :
    ReadBefore s r (addSpecifiers form specs specifiers) := by
  induction specifiers generalizing specs with
  | nil => exact .pure _
  | cons specifier rest ih =>
      obtain ⟨here, others⟩ := List.forall_mem_cons.mp there
      intro a r' ok
      rw [addSpecifiers] at ok ⊢
      obtain ⟨heap, r₁, got, ok⟩ := ok_of_bind ok
      cases got
      have got : Compiler.heap s = .ok s.image.heap s := rfl
      rw [bind_ended got]
      cases read : r.image.heap.listItems? specifier with
      | none =>
          rw [read] at ok
          cases (ReadBefore.malformed (s := s) _ _ _ _ ok).1
      | some items =>
          rw [read] at ok
          rw [(closed.spine_before keeps here read).listItems?]
          cases items with
          | nil => exact ih others specs a r' ok
          | cons kind names =>
              dsimp only at ok ⊢
              cases named : kind.asSymbol? with
              | none =>
                  rw [named] at ok
                  exact ih others specs a r' ok
              | some kind =>
                  rw [named] at ok
                  dsimp only at ok ⊢
                  split at ok
                  · rename_i matters
                    rw [if_pos matters]
                    exact ReadBefore.bind (addDeclared_before _ _ _ _)
                      (fun specs _ => ih others specs) a r' ok
                  · rename_i passed
                    rw [if_neg passed]
                    exact ih others specs a r' ok

omit closed in
theorem isDeclaration_before (there : s.image.heap.There form) :
    ReadBefore s r (isDeclaration form) := by
  refine .bind (fun head r' ok => ?_) fun _ _ => .pure _
  cases form with
  | cons a =>
      cases ok
      refine ⟨?_, rfl⟩
      change EStateM.Result.ok (some (s.image.heap.cell a).car) s = _
      rw [keeps.cell a (there a rfl)]
  | _ =>
      cases ok
      exact ⟨rfl, rfl⟩

theorem parseDeclaration_before (there : s.image.heap.There form) (specs : DeclSpecs) :
    ReadBefore s r (parseDeclaration form specs) := by
  intro a r' ok
  cases form with
  | cons b =>
      have bound := there b rfl
      have got (u : CompileState) : restItems? (.cons b) u =
          .ok (u.image.heap.listItems? (u.image.heap.cell b).cdr) u := rfl
      rw [parseDeclaration, bind_ended (got r)] at ok
      rw [parseDeclaration, bind_ended (got s)]
      rw [keeps.cell b bound] at ok
      have cdrThere := (closed b bound).2
      cases read : r.image.heap.listItems? (s.image.heap.cell b).cdr with
      | none =>
          rw [read] at ok
          cases (ReadBefore.malformed (s := s) _ _ _ _ ok).1
      | some specifiers =>
          have spine := closed.spine_before keeps cdrThere read
          rw [read] at ok
          rw [spine.listItems?]
          exact addSpecifiers_before closed keeps _ _ (spine.there closed) specs a r' ok
  | _ => exact absurd ok fun ok => nomatch (ReadBefore.malformed (s := s) _ _ _ _ ok).1

/-- A body is taken apart in the same way. -/
theorem parseBodyFrom_before (body : Body) (docstring : Bool) (forms : List Value)
    (there : ∀ form ∈ forms, s.image.heap.There form) :
    ReadBefore s r (parseBodyFrom body docstring forms) := by
  induction forms generalizing body with
  | nil => exact .pure _
  | cons form rest ih =>
      obtain ⟨here, others⟩ := List.forall_mem_cons.mp there
      have declared : ReadBefore s r (do
          if ← isDeclaration form then
            let declarations ← parseDeclaration form body.declarations
            parseBodyFrom { body with declarations } docstring rest
          else return { body with forms := form :: rest }) := by
        refine .bind (isDeclaration_before keeps here) fun isDeclaration _ => ?_
        split
        · exact .bind (parseDeclaration_before closed keeps here _) fun _ _ => ih _ others
        · exact .pure _
      cases form with
      | string a text =>
          rw [parseBodyFrom]
          split
          · exact ih _ others
          · exact .pure _
      | _ =>
          rw [parseBodyFrom]
          · exact declared
          · rintro _ _ ⟨⟩

theorem parseBody_before {docstring : Bool} (there : ∀ form ∈ forms, s.image.heap.There form) :
    ReadBefore s r (parseBody forms docstring) :=
  parseBodyFrom_before closed keeps _ _ forms there

end Bodies

section Lists

variable {heap later : Heap} {table table' last : SymbolTable} {list other : LambdaList} {value tail : Value}
  {var : SymbolId} {α : Type}

theorem parseLambdaList_spine (spine : s.image.heap.Spine value items .nil)
    (ok : parseLambdaList value s = .ok list r) :
    ∃ last, IsLambdaList s.image.heap True s.image.symbols items list last := by
  have got : Compiler.heap s = .ok s.image.heap s := rfl
  rw [parseLambdaList, bind_ended got, spine.listItems?] at ok
  obtain ⟨required, optional, _, vars, last, rfl, isRequired, isOptional,
    ⟨rest, keys, rfl, isRest, isKeys⟩, required_eq, -⟩ := parseItems_required_iff.mp ok
  rw [List.nil_append] at required_eq
  exact ⟨last, required, optional, rest, keys, by simp, required_eq ▸ isRequired, isOptional, isRest,
    isKeys⟩

/-- A lambda list that begins with a variable has it as its first required parameter. -/
theorem IsLambdaList.first {more : Prop} (named : var.isLambdaKeyword = false)
    (isList : IsLambdaList heap more table (.symbol var :: items) list last) :
    ∃ rest, list = rest.require var ∧ IsLambdaList heap more table items rest last := by
  obtain ⟨required, optional, rest, keys, split, isRequired, isOptional, isRest, isKeys⟩ := isList
  have marks : ∀ {marker : SymbolId} {others : List Value}, marker.isLambdaKeyword = true →
      Value.symbol var :: items ≠ .symbol marker :: others := by
    rintro marker others isKeyword same
    cases same
    rw [named] at isKeyword
    cases isKeyword
  generalize vars_eq : list.required = vars at isRequired
  cases isRequired with
  | nil =>
      exfalso
      generalize list.optional = params at isOptional
      generalize list.rest = var? at isRest
      generalize list.hasKeys = hasKeys, list.keys = keyParams, list.allowOtherKeys = allow at isKeys
      rcases isOptional with _ | _
      · rcases isRest with _ | ⟨rfl | rfl, _⟩
        · rcases isKeys with _ | _
          · cases split
          · exact marks (by decide) split
        · exact marks (by decide) split
        · exact marks (by decide) split
      · exact marks (by decide) split
  | @cons item var' required vars isVar others =>
      obtain ⟨rfl, -⟩ := isVar
      simp only [List.cons_append, List.cons.injEq, Value.symbol.injEq] at split
      obtain ⟨rfl, split⟩ := split
      refine ⟨{ list with required := vars }, ?_, required, optional, rest, keys, split, others,
        isOptional, isRest, isKeys⟩
      rw [LambdaList.require, ← vars_eq]

theorem IsLambdaList.require {more : Prop} (named : var.isLambdaKeyword = false)
    (isList : IsLambdaList heap more table items list last) :
    IsLambdaList heap more table (.symbol var :: items) (list.require var) last := by
  obtain ⟨required, optional, rest, keys, rfl, isRequired, isOptional, isRest, isKeys⟩ := isList
  exact ⟨.symbol var :: required, optional, rest, keys, rfl, .cons ⟨rfl, named⟩ isRequired, isOptional,
    isRest, isKeys⟩

/-- The two lambda lists have the same variables and the same default forms. -/
structure SameLists (list other : LambdaList) : Prop where
  vars : other.boundVars = list.boundVars
  defaults : other.defaults = list.defaults

theorem SameLists.refl (list : LambdaList) : SameLists list list := ⟨rfl, rfl⟩

/-- What is known of items that are there: what is read of them. -/
structure ReadThere (heap : Heap) (table : SymbolTable) (items : List Value) (list : LambdaList) :
    Prop where
  there : ∀ item ∈ items, heap.There item
  isList : ∃ last, IsLambdaList heap True table items list last

theorem ReadThere.again (read : ReadThere heap table items list) (closed : heap.Closed)
    (keeps : heap.Keeps later) (again : IsLambdaList later True table' items other last) :
    SameLists list other := by
  obtain ⟨there, last, isList⟩ := read
  obtain ⟨vars, defaults⟩ := isList.again closed keeps there again
  exact ⟨vars, defaults⟩

namespace Pattern

variable {p q : Pattern LambdaList} {lists : Pattern (List Value)}

theorem Along.vars_eq (along : Along SameLists p q) : q.vars = p.vars := by
  induction along with
  | others same => exact same.vars
  | variable_ _ _ ih => simp [vars, ih]
  | sublist _ _ _ _ _ inside rest => simp [vars, inside, rest]

theorem Along.defaults_eq (along : Along SameLists p q) : q.defaults = p.defaults := by
  induction along with
  | others same => exact same.defaults
  | variable_ _ _ ih => exact ih
  | sublist _ _ _ _ _ inside rest => simp [defaults, inside, rest]

theorem Along.imp {β : Type} {R S : α → β → Prop} {p : Pattern α} {q : Pattern β}
    (along : Along R p q) (weaker : ∀ a b, R a b → S a b) : Along S p q := by
  induction along with
  | others related => exact .others (weaker _ _ related)
  | variable_ var _ ih => exact .variable_ var ih
  | sublist param param' whole _ _ inside rest => exact .sublist param param' whole inside rest

/-- The variables and the parameters of the ordinary lambda list are read of its items. -/
theorem Along.readThere (along : Along (ReadThere heap table) lists p)
    (isPattern : IsPattern heap Eq items tail lists)
    (named : ∀ id ∈ lists.params, id.isLambdaKeyword = false) (same : p.params = lists.params) :
    ReadThere heap table lists.items p.list := by
  induction along generalizing items tail with
  | others read => exact read
  | variable_ var _ ih =>
      cases isPattern with
      | variable_ isVar rest =>
          obtain ⟨there, last, isList⟩ := ih rest named same
          exact ⟨List.forall_mem_cons.mpr ⟨nofun, there⟩, last, isList.require isVar.named⟩
  | sublist param param' whole inside _ _ ih =>
      cases isPattern with
      | sublist _ isCons spine opens isInside rest =>
          obtain ⟨rfl, -, same⟩ := inside.split_params same
          obtain ⟨there, last, isList⟩ := ih rest
            (fun id member => named id (List.mem_cons_of_mem _ (List.mem_append_right _ member))) same
          exact ⟨List.forall_mem_cons.mpr ⟨nofun, there⟩, last,
            isList.require (named _ List.mem_cons_self)⟩

/-- What is known of all that stands behind the required parameters. -/
def behind : Pattern α → α
  | others known => known
  | variable_ _ rest => rest.behind
  | sublist _ _ _ rest => rest.behind

/-- The ordinary lambda list in which parameters stand for the sublists, with something else behind the
required parameters. -/
def fill (known : LambdaList) : Pattern α → LambdaList
  | others _ => known
  | variable_ var rest => (rest.fill known).require var
  | sublist param _ _ rest => (rest.fill known).require param

theorem fill_behind (p : Pattern LambdaList) : p.fill p.behind = p.list := by
  induction p with
  | others list => rfl
  | variable_ var rest ih => rw [fill, behind, ih, list]
  | sublist param whole inner rest _ ih => rw [fill, behind, ih, list]

theorem Along.fill_eq {β : Type} {R : α → β → Prop} {p : Pattern α} {q : Pattern β} (along : Along R p q)
    (same : q.params = p.params) (known : LambdaList) : q.fill known = p.fill known := by
  induction along with
  | others _ => rfl
  | variable_ var _ ih => rw [fill, ih same, fill]
  | sublist param param' whole inside _ _ ih =>
      obtain ⟨rfl, -, same⟩ := inside.split_params same
      rw [fill, ih same, fill]

theorem Along.behind {β : Type} {R : α → β → Prop} {p : Pattern α} {q : Pattern β} (along : Along R p q) :
    R p.behind q.behind := by
  induction along with
  | others related => exact related
  | variable_ _ _ ih => exact ih
  | sublist _ _ _ _ _ _ ih => exact ih

end Pattern

/-- What is read of the items with parameters for the sublists has the variables and the parameters of
the pattern. -/
theorem IsPattern.reads {items : List Value} {lists : Pattern (List Value)}
    (isPattern : IsPattern heap Eq items value lists)
    (named : ∀ id ∈ lists.params, id.isLambdaKeyword = false)
    (isList : IsLambdaList later True table' lists.items list last) :
    ∃ other, list = lists.fill other ∧ IsLambdaList later True table' lists.behind other last := by
  induction isPattern generalizing list with
  | others _ _ _ => exact ⟨list, rfl, isList⟩
  | variable_ isVar _ ih =>
      obtain ⟨rest, rfl, isRest⟩ := isList.first isVar.named
      obtain ⟨other, rfl, isOther⟩ := ih named isRest
      exact ⟨other, rfl, isOther⟩
  | sublist param _ _ _ _ _ _ ih =>
      obtain ⟨rest, rfl, isRest⟩ := isList.first (named param List.mem_cons_self)
      obtain ⟨other, rfl, isOther⟩ := ih
        (fun id member => named id (List.mem_cons_of_mem _ (List.mem_append_right _ member))) isRest
      exact ⟨other, rfl, isOther⟩

end Lists

end LispScript.Compiler
