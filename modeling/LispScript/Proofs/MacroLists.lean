import LispScript.Proofs.Copies
import LispScript.Proofs.Heads
import LispScript.Proofs.LambdaListGrammar
import LispScript.Proofs.LambdaLists

/-!
Macro lambda lists: what they look like, which arguments match them, and what their variables are
bound to. In the place of a required parameter there may be a list again, which the argument in that
place has to match.
-/

namespace LispScript

namespace Heap

variable {heap later : Heap} {value tail : Value} {items more : List Value}

/-- What follows the first element of a list. -/
def FollowsFirst (heap : Heap) (rest list : Value) : Prop :=
  ∃ a, a < heap.cells.size ∧ list = .cons a ∧ rest = (heap.cell a).cdr

theorem Spine.acyclic (spine : heap.Spine value items tail) : Acc heap.FollowsFirst value := by
  induction spine with
  | done ends =>
      refine .intro _ ?_
      rintro rest ⟨a, -, rfl, -⟩
      cases ends
  | cons bound _ ih =>
      refine .intro _ ?_
      rintro rest ⟨a, -, same, rfl⟩
      cases same
      exact ih

theorem Spine.length_lt {depth : Nat} (spine : heap.Spine value items tail)
    (descends : Descends heap.FollowsFirst depth value) : items.length < depth := by
  induction spine generalizing depth with
  | done ends =>
      cases depth with
      | zero => exact descends.elim
      | succ depth => exact Nat.succ_pos depth
  | cons bound _ ih =>
      cases depth with
      | zero => exact descends.elim
      | succ depth => exact Nat.succ_lt_succ (ih (descends _ ⟨_, bound, rfl, rfl⟩))

/-- The cell that a value is. -/
def consPlace : Value → Nat
  | .cons a => a
  | _ => 0

/-- A list that ends is no longer than there are conses. -/
theorem Spine.length_le_size (spine : heap.Spine value items tail) :
    items.length ≤ heap.cells.size := by
  refine Nat.le_of_lt_succ (spine.length_lt (descends_of_acyclic consPlace spine.acyclic ?_ ?_))
  · rintro _ _ ⟨a, bound, rfl, -⟩
    exact bound
  · rintro _ _ _ _ ⟨a, -, rfl, -⟩ ⟨b, -, rfl, -⟩ same
    exact congrArg Value.cons same

theorem Spine.splitDotted (spine : heap.Spine value items tail) :
    heap.splitDotted value = (items, tail) :=
  spineFrom_eq spine spine.length_le_size []

theorem Spine.listItems? (spine : heap.Spine value items .nil) :
    heap.listItems? value = some items := by
  rw [Heap.listItems?, spine.splitDotted]

/-- A value is a list of the same items only. -/
theorem Spine.unique (spine : heap.Spine value items .nil) (also : heap.Spine value more .nil) :
    items = more :=
  Option.some.inj (spine.listItems?.symm.trans also.listItems?)

theorem Heads.append (heads : heap.Heads value items tail) {last : Value}
    (spine : heap.Spine tail more last) : heap.Spine value (items ++ more) last := by
  induction heads with
  | done => exact spine
  | cons bound _ ih => exact .cons bound (ih spine)

/-- A list with elements is a cons of the first one. -/
theorem Spine.ofCons {first : Value} (spine : heap.Spine value (first :: items) tail) :
    ∃ a, value = .cons a ∧ a < heap.cells.size ∧ (heap.cell a).car = first ∧
      heap.Spine (heap.cell a).cdr items tail := by
  generalize all : first :: items = elements at spine
  cases spine with
  | done => cases all
  | cons bound rest =>
      cases all
      exact ⟨_, rfl, bound, rfl, rest⟩

/-- A value that is no cons, or one that is there. -/
def There (heap : Heap) (value : Value) : Prop := ∀ a, value = .cons a → a < heap.cells.size

/-- Every cons that is in a cons is there. -/
def Closed (heap : Heap) : Prop :=
  ∀ a, a < heap.cells.size → heap.There (heap.cell a).car ∧ heap.There (heap.cell a).cdr

theorem Spine.there (closed : heap.Closed) (spine : heap.Spine value items tail) :
    ∀ item ∈ items, heap.There item := by
  induction spine with
  | done => exact nofun
  | cons bound _ ih => exact List.forall_mem_cons.mpr ⟨(closed _ bound).1, ih⟩

theorem Closed.spineFrom (closed : heap.Closed) (keeps : heap.Keeps later) {limit : Nat}
    {seen : List Value} (there : heap.There value)
    (split : later.spineFrom limit seen value = (items, .nil)) :
    ∃ more, items = seen.reverse ++ more ∧ heap.Spine value more .nil := by
  induction limit generalizing seen value with
  | zero =>
      cases split
      exact ⟨[], (List.append_nil _).symm, .done rfl⟩
  | succ limit ih =>
      cases value with
      | cons a =>
          have same := keeps.cell a (there a rfl)
          rw [Heap.spineFrom, same] at split
          obtain ⟨more, rfl, spine⟩ := ih (closed a (there a rfl)).2 split
          exact ⟨_ :: more, by simp, .cons (there a rfl) spine⟩
      | nil =>
          cases split
          exact ⟨[], (List.append_nil _).symm, .done rfl⟩
      | _ => cases split

/-- What is read later as a list was a list of the same items before. -/
theorem Closed.spine_before (closed : heap.Closed) (keeps : heap.Keeps later)
    (there : heap.There value) (read : later.listItems? value = some items) :
    heap.Spine value items .nil := by
  rw [Heap.listItems?] at read
  split at read
  · rename_i found
    cases read
    obtain ⟨more, rfl, spine⟩ := closed.spineFrom keeps there found
    exact spine
  · cases read

/-- The elements of a list are those of its spine. -/
theorem Closed.spine (closed : heap.Closed) (there : heap.There value)
    (read : heap.listItems? value = some items) : heap.Spine value items .nil :=
  closed.spine_before (.refl heap) there read

theorem Closed.listItems? (closed : heap.Closed) (keeps : heap.Keeps later)
    (there : heap.There value) (read : heap.listItems? value = some items) :
    later.listItems? value = some items :=
  ((closed.spine there read).kept keeps).listItems?

end Heap

namespace Compiler

section Rereading

/-- The default forms of a lambda list. -/
def LambdaList.defaults (list : LambdaList) : List Value :=
  list.optional.map (·.default) ++ list.keys.map (·.default)

/-- A form that stands for itself. -/
def IsConstantForm (table : SymbolTable) : Value → Prop
  | .symbol id => id = SymbolId.t ∨ table.isKeyword id = true
  | .cons _ => False
  | _ => True

/-- All of a keyword parameter but its keyword. -/
def KeyParam.unnamed (param : KeyParam) : SymbolId × Value × Option SymbolId :=
  (param.var, param.default, param.supplied)

variable {heap later : Heap} {table last table' last' : SymbolTable} {item : Value}
  {items : List Value}

theorem IsOptional.kept {param : OptionalParam} (closed : heap.Closed) (keeps : heap.Keeps later)
    (there : heap.There item) (isOptional : IsOptional heap item param) :
    IsOptional later item param := by
  cases isOptional with
  | bare isVar => exact .bare isVar
  | list items isVar rest => exact .list (closed.listItems? keeps there items) isVar rest

/-- In another table the keyword that is named after a variable may be another symbol. -/
theorem IsKeyName.kept {var keyword : SymbolId} (closed : heap.Closed) (keeps : heap.Keeps later)
    (there : heap.There item) (isName : IsKeyName heap table item var keyword last)
    (table' : SymbolTable) : ∃ keyword' last', IsKeyName later table' item var keyword' last' := by
  cases isName with
  | bare isVar => exact ⟨_, _, .bare isVar rfl⟩
  | named items isKey isVar =>
      exact ⟨_, _, .named (closed.listItems? keeps there items) isKey isVar⟩

theorem IsKey.kept {param : KeyParam} (closed : heap.Closed) (keeps : heap.Keeps later)
    (there : heap.There item) (isKey : IsKey heap table item param last) (table' : SymbolTable) :
    ∃ param' last', IsKey later table' item param' last' ∧ param'.unnamed = param.unnamed := by
  cases isKey with
  | bare isVar name =>
      obtain ⟨keyword, last', name⟩ := name.kept closed keeps there table'
      exact ⟨_, _, .bare isVar name, rfl⟩
  | @list first _ _ _ items name rest =>
      have firstThere := (closed.spine there items).there closed first List.mem_cons_self
      obtain ⟨keyword, last', name⟩ := name.kept closed keeps firstThere table'
      exact ⟨{ param with keyword := keyword }, last', .list (closed.listItems? keeps there items) name rest, rfl⟩

theorem AreKeys.kept {more : Prop} {params : List KeyParam} {allow : Bool} (closed : heap.Closed)
    (keeps : heap.Keeps later) (there : ∀ item ∈ items, heap.There item)
    (areKeys : AreKeys heap more table items params allow last) (table' : SymbolTable) :
    ∃ params' last', AreKeys later more table' items params' allow last' ∧
      params'.map KeyParam.unnamed = params.map KeyParam.unnamed := by
  induction areKeys generalizing table' with
  | nil => exact ⟨[], table', .nil, rfl⟩
  | param isKey _ ih =>
      obtain ⟨here, others⟩ := List.forall_mem_cons.mp there
      obtain ⟨param', middle, isKey, same⟩ := isKey.kept closed keeps here table'
      obtain ⟨params', last', areKeys, others_same⟩ := ih others middle
      exact ⟨param' :: params', last', .param isKey areKeys, by simp [same, others_same]⟩
  | allow atEnd _ ih =>
      obtain ⟨params', last', areKeys, same⟩ := ih (List.forall_mem_cons.mp there).2 table'
      exact ⟨params', last', .allow atEnd areKeys, same⟩

/-- The items of a lambda list are read in one way only. -/
theorem IsLambdaList.unique {list other : LambdaList}
    (isList : IsLambdaList heap True table items list last)
    (also : IsLambdaList heap True table items other last') : other = list ∧ last' = last := by
  let s : CompileState := { image := { symbols := table, heap, depthLimit := 0 } }
  have parsed : ∀ {list last}, IsLambdaList heap True table items list last →
      parseItems .nil .required {} items s = .ok list (s.withSymbols last) := by
    rintro list last ⟨required, optional, rest, keys, rfl, isRequired, isOptional, isRest, isKeys⟩
    exact parseItems_required_iff.mpr ⟨required, optional, rest ++ keys, _, last, by simp,
      isRequired, isOptional, ⟨rest, keys, rfl, isRest, isKeys⟩, rfl, rfl⟩
  have same := (parsed also).symm.trans (parsed isList)
  simp only [EStateM.Result.ok.injEq] at same
  exact ⟨same.1, congrArg (fun t : CompileState => t.image.symbols) same.2⟩

/-- However the items of a lambda list are read later, the variables and the defaults are the same. -/
theorem IsLambdaList.again {list other : LambdaList} (closed : heap.Closed)
    (keeps : heap.Keeps later) (there : ∀ item ∈ items, heap.There item)
    (isList : IsLambdaList heap True table items list last)
    (again : IsLambdaList later True table' items other last') :
    other.boundVars = list.boundVars ∧ other.defaults = list.defaults := by
  obtain ⟨required, optional, rest, keys, rfl, isRequired, isOptional, isRest, isKeys⟩ := isList
  have thereOptional : ∀ item ∈ optional, heap.There item := fun item member =>
    there item (by simp [member])
  have thereKeys : ∀ item ∈ keys, heap.There item := fun item member =>
    there item (by simp [member])
  have isOptional' : IsOptionalSection later optional list.optional := by
    revert thereOptional
    generalize list.optional = params at isOptional
    intro thereOptional
    cases isOptional with
    | absent => exact .absent
    | present each =>
        have thereItems := (List.forall_mem_cons.mp thereOptional).2
        exact .present ((List.forall₂_and_left _ _ |>.mpr ⟨thereItems, each⟩).imp
          fun item param is => is.2.kept closed keeps is.1)
  obtain ⟨keys', allow, last₁, isKeys', same⟩ : ∃ keys' allow last₁,
      IsKeySection later True table' keys list.hasKeys keys' allow last₁ ∧
        keys'.map KeyParam.unnamed = list.keys.map KeyParam.unnamed := by
    revert thereKeys
    generalize list.hasKeys = hasKeys, list.keys = params, list.allowOtherKeys = allow at isKeys
    intro thereKeys
    cases isKeys with
    | absent => exact ⟨[], false, table', .absent, rfl⟩
    | present areKeys =>
        obtain ⟨keys', last₁, areKeys, same⟩ :=
          areKeys.kept closed keeps (List.forall_mem_cons.mp thereKeys).2 table'
        exact ⟨keys', _, last₁, .present areKeys, same⟩
  have isList : IsLambdaList later True table' (required ++ optional ++ rest ++ keys)
      { list with keys := keys', allowOtherKeys := allow } last₁ :=
    ⟨required, optional, rest, keys, rfl, isRequired, isOptional', isRest, isKeys'⟩
  obtain ⟨rfl, -⟩ := isList.unique again
  have defaults_eq : keys'.map (·.default) = list.keys.map (·.default) := by
    have seconds := congrArg (List.map (·.2.1)) same
    rwa [List.map_map, List.map_map] at seconds
  have vars_eq : keys'.flatMap (fun p => p.var :: p.supplied.toList) =
      list.keys.flatMap (fun p => p.var :: p.supplied.toList) := by
    have vars := congrArg (List.flatMap fun p : SymbolId × Value × Option SymbolId =>
      p.1 :: p.2.2.toList) same
    rwa [List.flatMap_map, List.flatMap_map] at vars
  exact ⟨by simp only [LambdaList.boundVars, vars_eq], by simp only [LambdaList.defaults, defaults_eq]⟩

end Rereading

section Grammar

/-- A lambda list with one more required parameter in front. -/
def LambdaList.require (var : SymbolId) (list : LambdaList) : LambdaList :=
  { list with required := var :: list.required }

/-- A macro lambda list behind its variable for the whole: variables and lists in the places of
required parameters, and what is known of all that stands behind them. For a list there are the
parameter that takes its place in an ordinary lambda list, its variable for the whole of it, and what
it has in it. -/
inductive Pattern (α : Type) where
  | others (known : α)
  | variable_ (var : SymbolId) (rest : Pattern α)
  | sublist (param : SymbolId) (whole : Option SymbolId) (inner rest : Pattern α)

/-- `[&WHOLE var]` and what stands after it. -/
inductive Opens : Option SymbolId → List Value → List Value → Prop where
  | absent (items : List Value) : Opens none items items
  | present {item : Value} {var : SymbolId} (isVar : IsVariable item var) (items : List Value) :
      Opens (some var) (.symbol SymbolId.ampWhole :: item :: items) items

/-- What stands behind the required parameters. -/
structure AreOthers (items : List Value) : Prop where
  opened : ∀ item ∈ items.head?, ¬ IsPlain item
  ordinary : ∀ item ∈ items, item ≠ .symbol SymbolId.ampWhole ∧
    item ≠ .symbol SymbolId.ampEnvironment

/-- A dotted tail stands for a variable of the remaining arguments. -/
inductive Dots : Value → List Value → Prop where
  | proper : Dots .nil []
  | variable_ (id : SymbolId) : Dots (.symbol id) [.symbol SymbolId.ampRest, .symbol id]

/-- The items of a macro lambda list after its variable for the whole, and its tail. `Reads` tells what
is known of the items of an ordinary lambda list. -/
inductive IsPattern (heap : Heap) {α : Type} (Reads : List Value → α → Prop) :
    List Value → Value → Pattern α → Prop where
  | others {items dots : List Value} {tail : Value} {known : α} (others : AreOthers items)
      (dotted : Dots tail dots) (reads : Reads (items ++ dots) known) :
      IsPattern heap Reads items tail (.others known)
  | variable_ {item tail : Value} {var : SymbolId} {items : List Value} {pattern : Pattern α}
      (isVar : IsVariable item var) (rest : IsPattern heap Reads items tail pattern) :
      IsPattern heap Reads (item :: items) tail (.variable_ var pattern)
  | sublist {item tail tail' : Value} {elements required items : List Value}
      {whole : Option SymbolId} {inner pattern : Pattern α} (param : SymbolId)
      (isCons : item.isCons = true) (spine : heap.Spine item elements tail')
      (opens : Opens whole elements required) (inside : IsPattern heap Reads required tail' inner)
      (rest : IsPattern heap Reads items tail pattern) :
      IsPattern heap Reads (item :: items) tail (.sublist param whole inner pattern)

/-- A macro lambda list: an optional variable for the whole, required variables and sublists, and
behind them what may stand behind the required parameters of a lambda list. -/
structure IsMacroList (heap : Heap) {α : Type} (Reads : List Value → α → Prop) (value : Value)
    (whole : Option SymbolId) (pattern : Pattern α) : Prop where
  parts : ∃ elements required tail, heap.Spine value elements tail ∧
    Opens whole elements required ∧ IsPattern heap Reads required tail pattern

namespace Pattern

variable {α β : Type}

/-- How many sublists there are. -/
def count : Pattern α → Nat
  | others _ => 0
  | variable_ _ rest => rest.count
  | sublist _ _ inner rest => inner.count + rest.count + 1

/-- The variables. -/
def vars : Pattern LambdaList → List SymbolId
  | others list => list.boundVars
  | variable_ var rest => var :: rest.vars
  | sublist _ whole inner rest => whole.toList ++ (inner.vars ++ rest.vars)

/-- The default forms. -/
def defaults : Pattern LambdaList → List Value
  | others list => list.defaults
  | variable_ _ rest => rest.defaults
  | sublist _ _ inner rest => inner.defaults ++ rest.defaults

/-- The parameters that stand for sublists. -/
def params : Pattern α → List SymbolId
  | others _ => []
  | variable_ _ rest => rest.params
  | sublist param _ inner rest => param :: (inner.params ++ rest.params)

/-- The ordinary lambda list in which parameters stand for the sublists. -/
def list : Pattern LambdaList → LambdaList
  | others list => list
  | variable_ var rest => rest.list.require var
  | sublist param _ _ rest => rest.list.require param

/-- The parameters of the ordinary lambda list that stand for sublists. -/
def tops : Pattern α → List SymbolId
  | others _ => []
  | variable_ _ rest => rest.tops
  | sublist param _ _ rest => param :: rest.tops

/-- What is bound where the values of these parameters are spread over the variables of the sublists. -/
def binders : Pattern LambdaList → List SymbolId
  | others _ => []
  | variable_ _ rest => rest.binders
  | sublist _ whole inner rest =>
      whole.toList ++ (inner.list.boundVars ++ (inner.binders ++ rest.binders))

/-- The two are of the same form and have the same variables, and what is known of the one goes with
what is known of the other. -/
inductive Along (R : α → β → Prop) : Pattern α → Pattern β → Prop where
  | others {a : α} {b : β} (related : R a b) : Along R (.others a) (.others b)
  | variable_ {p : Pattern α} {q : Pattern β} (var : SymbolId) (rest : Along R p q) :
      Along R (.variable_ var p) (.variable_ var q)
  | sublist {p inner : Pattern α} {q inner' : Pattern β} (param param' : SymbolId)
      (whole : Option SymbolId) (inside : Along R inner inner') (rest : Along R p q) :
      Along R (.sublist param whole inner p) (.sublist param' whole inner' q)

theorem tops_subset (pattern : Pattern α) : pattern.tops ⊆ pattern.params := by
  induction pattern with
  | others known => exact List.nil_subset _
  | variable_ var rest ih => exact ih
  | sublist param whole inner rest _ ih =>
      exact List.cons_subset_cons _ fun id member => List.mem_append_right _ (ih member)

theorem tops_bound (pattern : Pattern LambdaList) : pattern.tops ⊆ pattern.list.boundVars := by
  induction pattern with
  | others list => exact List.nil_subset _
  | variable_ var rest ih => exact fun id member => List.mem_cons_of_mem _ (ih member)
  | sublist param whole inner rest _ ih => exact List.cons_subset_cons _ ih

/-- All that is bound are the variables and the parameters that stand for sublists. -/
theorem bound_perm (pattern : Pattern LambdaList) :
    (pattern.list.boundVars ++ pattern.binders).Perm (pattern.vars ++ pattern.params) := by
  induction pattern with
  | others list => exact .refl _
  | variable_ var rest ih => exact ih.cons var
  | sublist param whole inner rest inside others =>
      refine List.perm_iff_count.mpr fun id => ?_
      have first := inside.count_eq id
      have second := others.count_eq id
      have front : (rest.list.require param).boundVars = param :: rest.list.boundVars := rfl
      simp only [list, front, binders, vars, params, List.cons_append, List.count_append,
        List.count_cons] at first second ⊢
      omega

/-- The same pattern, with the parameters of another for the sublists. -/
theorem Along.rename {R : α → β → Prop} {p : Pattern α} {q : Pattern β} (along : Along R p q) :
    ∃ named : Pattern β, Along R p named ∧ named.params = p.params ∧ Along Eq q named := by
  induction along with
  | @others _ b related => exact ⟨.others b, .others related, rfl, .others rfl⟩
  | variable_ var _ ih =>
      obtain ⟨named, along, params, same⟩ := ih
      exact ⟨.variable_ var named, .variable_ var along, params, .variable_ var same⟩
  | sublist param param' whole _ _ inside rest =>
      obtain ⟨namedInside, alongInside, paramsInside, sameInside⟩ := inside
      obtain ⟨named, along, params_eq, same⟩ := rest
      refine ⟨.sublist param whole namedInside named, .sublist param param whole alongInside along, ?_,
        .sublist param' param whole sameInside same⟩
      rw [params, params, paramsInside, params_eq]

theorem Along.length_params {R : α → β → Prop} {p : Pattern α} {q : Pattern β} (along : Along R p q) :
    q.params.length = p.params.length := by
  induction along with
  | others _ => rfl
  | variable_ _ _ ih => exact ih
  | sublist _ _ _ _ _ inside rest => simp [params, inside, rest]

theorem Along.split_params {R : α → β → Prop} {p inner : Pattern α} {q inner' : Pattern β}
    {param param' : SymbolId} {whole : Option SymbolId} (inside : Along R inner inner')
    (same : (Pattern.sublist param' whole inner' q).params =
      (Pattern.sublist param whole inner p).params) :
    param' = param ∧ inner'.params = inner.params ∧ q.params = p.params := by
  obtain ⟨first, others⟩ := List.cons.inj same
  exact ⟨first, List.append_inj others inside.length_params⟩

end Pattern

variable {heap : Heap} {α β : Type} {Reads : List Value → α → Prop} {Reads' : List Value → β → Prop}
  {items : List Value} {tail value : Value} {pattern : Pattern α} {whole : Option SymbolId}

/-- Of items that are known themselves, more can be told. -/
theorem IsPattern.along {lists : Pattern (List Value)}
    (isPattern : IsPattern heap Eq items tail lists) (along : lists.Along Reads pattern) :
    IsPattern heap Reads items tail pattern := by
  induction isPattern generalizing pattern with
  | others others dotted same =>
      cases along with
      | others related => exact .others others dotted (same ▸ related)
  | variable_ isVar _ ih =>
      cases along with
      | variable_ _ rest => exact .variable_ isVar (ih rest)
  | sublist _ isCons spine opens _ _ ihInside ihRest =>
      cases along with
      | sublist _ param _ inside rest =>
          exact .sublist param isCons spine opens (ihInside inside) (ihRest rest)

theorem IsMacroList.along {lists : Pattern (List Value)} (isMacroList : IsMacroList heap Eq value whole lists)
    (along : lists.Along Reads pattern) : IsMacroList heap Reads value whole pattern := by
  obtain ⟨elements, required, tail, spine, opens, isPattern⟩ := isMacroList
  exact ⟨elements, required, tail, spine, opens, isPattern.along along⟩

end Grammar

section Matching

variable {heap before later : Heap} {has : Value → Value → Prop} {gives : SymbolId → Value → Prop}

namespace LambdaList

variable {list : LambdaList} {var : SymbolId} {arg : Value} {args : List Value}

theorem positional_require : (list.require var).positional = list.positional + 1 := by
  simp only [positional, require, List.length_cons]
  omega

theorem refusal?_require_cons : (list.require var).refusal? (arg :: args) = list.refusal? args := by
  have allows : (list.require var).allows (args.length + 1) = list.allows args.length := by
    rw [LambdaList.allows, positional_require]
    simp [LambdaList.allows, require, isVariadic]
  rw [refusal?, refusal?, List.length_cons, allows, positional_require, List.drop_succ_cons]
  rfl

theorem refusal?_require_nil : (list.require var).refusal? [] = some .arity := by
  simp [refusal?, LambdaList.allows, require]

theorem receives_require : (list.require var).Receives (arg :: args) has before later gives ↔
    gives var arg ∧ list.Receives args has before later gives := by
  have place (k : Nat) : (list.require var).required.length + k = list.required.length + k + 1 := by
    simp only [require, List.length_cons]
    omega
  have dropped : (arg :: args).drop (list.require var).positional = args.drop list.positional := by
    rw [positional_require, List.drop_succ_cons]
  constructor
  · rintro ⟨required, given, missing, givenFlag, rest, key, keyDefault, keyFlag⟩
    rw [dropped] at rest key keyDefault keyFlag
    simp only [place, List.getElem?_cons_succ, List.length_cons, Nat.add_le_add_iff_right,
      Nat.add_lt_add_iff_right] at given missing givenFlag
    obtain ⟨_, ⟨⟩, gives_⟩ := required 0 var rfl
    exact ⟨gives_, fun k var found => required (k + 1) var found, given, missing, givenFlag, rest, key,
      keyDefault, keyFlag⟩
  · rintro ⟨gives_, required, given, missing, givenFlag, rest, key, keyDefault, keyFlag⟩
    refine ⟨fun k other found => ?_, ?_, ?_, ?_, ?_, ?_, ?_, ?_⟩
    · cases k with
      | zero =>
          cases found
          exact ⟨arg, rfl, gives_⟩
      | succ k => exact required k other found
    all_goals
      simp only [place, dropped, List.getElem?_cons_succ, List.length_cons,
        Nat.add_le_add_iff_right, Nat.add_lt_add_iff_right]
      assumption

end LambdaList

namespace Pattern

/-- The arguments match: at each level there are as many as there may be, and the keywords among them
are known. -/
def Matches (heap : Heap) : Pattern LambdaList → List Value → Prop
  | others list, args => list.refusal? args = none
  | variable_ _ rest, _ :: args => rest.Matches heap args
  | sublist _ _ inner rest, arg :: args =>
      (∃ items, heap.Spine arg items .nil ∧ inner.Matches heap items) ∧ rest.Matches heap args
  | _, [] => False

/-- The arguments in the places of sublists are proper lists. -/
def HasLists (heap : Heap) : Pattern LambdaList → List Value → Prop
  | variable_ _ rest, _ :: args => rest.HasLists heap args
  | sublist _ _ inner rest, arg :: args =>
      (∃ items, heap.Spine arg items .nil ∧ inner.HasLists heap items) ∧ rest.HasLists heap args
  | _, _ => True

/-- The variables are bound to the parts of the arguments that stand in their places. -/
def Binds (heap : Heap) (has : Value → Value → Prop) (before later : Heap)
    (gives : SymbolId → Value → Prop) : Pattern LambdaList → List Value → Prop
  | others list, args => list.Receives args has before later gives
  | variable_ var rest, arg :: args => gives var arg ∧ rest.Binds heap has before later gives args
  | sublist _ whole inner rest, arg :: args => (∀ var ∈ whole, gives var arg) ∧
      (∃ items, heap.Spine arg items .nil ∧ inner.Binds heap has before later gives items) ∧
      rest.Binds heap has before later gives args
  | _, [] => False

/-- The arguments in the places of sublists match these. -/
def InsideMatches (heap : Heap) : Pattern LambdaList → List Value → Prop
  | variable_ _ rest, _ :: args => rest.InsideMatches heap args
  | sublist _ _ inner rest, arg :: args =>
      (∃ items, heap.Spine arg items .nil ∧ inner.Matches heap items) ∧ rest.InsideMatches heap args
  | _, _ => True

/-- The variables of the sublists are bound to parts of the arguments. -/
def InsideBinds (heap : Heap) (has : Value → Value → Prop) (before later : Heap)
    (gives : SymbolId → Value → Prop) : Pattern LambdaList → List Value → Prop
  | variable_ _ rest, _ :: args => rest.InsideBinds heap has before later gives args
  | sublist _ whole inner rest, arg :: args => (∀ var ∈ whole, gives var arg) ∧
      (∃ items, heap.Spine arg items .nil ∧ inner.Binds heap has before later gives items) ∧
      rest.InsideBinds heap has before later gives args
  | _, _ => True

/-- Arguments match where the lambda list takes them and those in the places of sublists match. -/
theorem matches_iff (pattern : Pattern LambdaList) (args : List Value) :
    pattern.Matches heap args ↔
      pattern.list.refusal? args = none ∧ pattern.InsideMatches heap args := by
  induction pattern generalizing args with
  | others list => simp [Matches, Pattern.list, InsideMatches]
  | variable_ var rest ih =>
      cases args with
      | nil => simp [Matches, Pattern.list, LambdaList.refusal?_require_nil]
      | cons arg args =>
          rw [Matches, ih, Pattern.list, LambdaList.refusal?_require_cons, InsideMatches]
  | sublist param whole inner rest _ ih =>
      cases args with
      | nil => simp [Matches, Pattern.list, LambdaList.refusal?_require_nil]
      | cons arg args =>
          rw [Matches, ih, Pattern.list, LambdaList.refusal?_require_cons, InsideMatches]
          exact and_left_comm

/-- Variables are bound where the lambda list and the sublists bind theirs. -/
theorem Binds.of_parts {pattern : Pattern LambdaList} {args : List Value}
    (takes : pattern.list.refusal? args = none)
    (receives : pattern.list.Receives args has before later gives)
    (inside : pattern.InsideBinds heap has before later gives args) :
    pattern.Binds heap has before later gives args := by
  induction pattern generalizing args with
  | others list => exact receives
  | variable_ var rest ih =>
      cases args with
      | nil =>
          rw [Pattern.list, LambdaList.refusal?_require_nil] at takes
          cases takes
      | cons arg args =>
          rw [Pattern.list, LambdaList.refusal?_require_cons] at takes
          obtain ⟨first, others⟩ := LambdaList.receives_require.mp receives
          exact ⟨first, ih takes others inside⟩
  | sublist param whole inner rest _ ih =>
      cases args with
      | nil =>
          rw [Pattern.list, LambdaList.refusal?_require_nil] at takes
          cases takes
      | cons arg args =>
          rw [Pattern.list, LambdaList.refusal?_require_cons] at takes
          obtain ⟨-, others⟩ := LambdaList.receives_require.mp receives
          obtain ⟨wholeBound, bound, more⟩ := inside
          exact ⟨wholeBound, bound, ih takes others more⟩

end Pattern

end Matching

end Compiler

end LispScript
